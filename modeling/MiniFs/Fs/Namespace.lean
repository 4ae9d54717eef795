import MiniFs.Fs.Api
import MiniFs.Fs.Effects

/-!
# The directory as a finite map

What the directory and the inode table hold between calls: the slots list the files, each under its
own name and its own inode, and the header counts them.  Creating and deleting a file add and remove
one binding.
-/

namespace MiniFs

open Fs

/-- What the slots list: a name and an inode number. -/
abbrev Entries : Type := Nat → Option (Name × Nat)

/-- Some slot lists the inode. -/
def Entries.Lists (entries : Entries) (number : Nat) : Prop :=
  ∃ slot name, entries slot = some (name, number)

/-- The slots in use. -/
def usedSlots (layout : NebulaLayout) (disk : Disk) : Finset Nat :=
  (Finset.range (slotCount layout)).filter fun slot => (slotAt layout disk slot).used = true

/-- The directory holds the root and the listed files, and the inode table their inodes. -/
structure DirOk (layout : NebulaLayout) (disk : Disk) (entries : Entries) : Prop where
  root : slotAt layout disk 0 = formatRootEntry
  outside : ∀ slot, slot = 0 ∨ slotCount layout ≤ slot → entries slot = none
  unused : ∀ slot, 0 < slot → slot < slotCount layout → entries slot = none →
    (slotAt layout disk slot).used = false
  stored : ∀ slot name number, entries slot = some (name, number) →
    slotAt layout disk slot = .for name (UInt64.ofNat number) dirFlagFile
  named : ∀ slot name number, entries slot = some (name, number) →
    name.length < dirNameMax ∧ name ≠ [47] ∧ 0 < number ∧ number < layout.inodePageBlockCount
  text : ∀ slot name number, entries slot = some (name, number) → ∀ byte ∈ name, byte ≠ 0
  distinct : ∀ slot other name name' number number', entries slot = some (name, number) →
    entries other = some (name', number') → name = name' ∨ number = number' → slot = other
  valid : ∀ number < layout.inodePageBlockCount, (inodeAt layout disk number).Valid
  listed : ∀ slot name number, entries slot = some (name, number) →
    (inodeAt layout disk number).type = inodeTypeFile ∧
      (inodeAt layout disk number).inodeNum.toNat = number
  free : ∀ number, 0 < number → number < layout.inodePageBlockCount → ¬ entries.Lists number →
    (inodeAt layout disk number).type = inodeTypeFree
  counted : (dirHeaderAt layout disk).numEntries.toNat = (usedSlots layout disk).card
  checked : (dirHeaderAt layout disk).checksum = dirHeaderChecksum (dirHeaderAt layout disk)

/-- The block writes go to inodes and the directory. -/
def MetaWrites (layout : NebulaLayout) (writes : List (Nat × Block)) : Prop :=
  ∀ write ∈ writes, layout.inodePageLba ≤ write.1 ∧ write.1 < layout.dataStartLba

theorem MetaWrites.append {layout : NebulaLayout} {first second : List (Nat × Block)}
    (one : MetaWrites layout first) (two : MetaWrites layout second) :
    MetaWrites layout (first ++ second) := by
  intro write member
  rcases List.mem_append.mp member with left | right
  · exact one write left
  · exact two write right

theorem dirHeaderChecksum_with (header : DirPageHeader) (value : UInt32) :
    dirHeaderChecksum { header with checksum := value } = dirHeaderChecksum header := by
  rw [dirHeaderChecksum, dirHeaderChecksum]

theorem dirHeaderChecksum_adjust (header : DirPageHeader) (delta : Int) :
    (header.adjust delta).checksum = dirHeaderChecksum (header.adjust delta) :=
  (dirHeaderChecksum_with _ _).symm

theorem DirPageHeader.magic_adjust (header : DirPageHeader) (delta : Int) :
    (header.adjust delta).magic = header.magic := by
  simp only [DirPageHeader.adjust, apply_ite DirPageHeader.magic, ite_self]

theorem numEntries_adjust_one {header : DirPageHeader} (few : header.numEntries.toNat < 2 ^ 32) :
    (header.adjust 1).numEntries.toNat = header.numEntries.toNat + 1 := by
  have one : (UInt64.ofNat (1 : Int).toNat).toNat = 1 := by decide
  simp only [DirPageHeader.adjust, if_pos (show (0 : Int) < 1 by decide)]
  rw [UInt64.toNat_add, one, Nat.mod_eq_of_lt (by omega)]

theorem numEntries_adjust_neg_one {header : DirPageHeader} (some : 1 ≤ header.numEntries.toNat) :
    (header.adjust (-1)).numEntries.toNat = header.numEntries.toNat - 1 := by
  have one : UInt64.ofNat (- (-1 : Int)).toNat = 1 := by decide
  have least : (1 : UInt64) ≤ header.numEntries := by
    rw [UInt64.le_iff_toNat_le]
    exact some
  simp only [DirPageHeader.adjust, if_neg (show ¬ (0 : Int) < -1 by decide), one, if_pos least]
  rw [UInt64.toNat_sub_of_le _ _ least]
  rfl

namespace DirOk

variable {layout : NebulaLayout} {disk : Disk} {entries : Entries}

/-- The directory and the inodes are all there is to it. -/
theorem of_content (dir : DirOk layout disk entries) (sound : layout.Sound) {after : Disk}
    (same : ∀ lba, layout.inodePageLba ≤ lba → lba < layout.dataStartLba →
      after.content lba = disk.content lba) : DirOk layout after entries := by
  have dirEq := sound.dir_eq
  have dataEq := sound.dataStart_eq
  have many := sound.inodeCount_ge
  have count := sound.dirCount_eq
  have slots : ∀ slot < slotCount layout, slotAt layout after slot = slotAt layout disk slot := by
    intro slot below
    rw [slotCount] at below
    rw [slotAt, slotAt, same _ (by omega) (by omega)]
  have inodes : ∀ number < layout.inodePageBlockCount,
      inodeAt layout after number = inodeAt layout disk number := by
    intro number inside
    rw [inodeAt, inodeAt, same _ (by omega) (by omega)]
  have header : dirHeaderAt layout after = dirHeaderAt layout disk := by
    rw [dirHeaderAt, dirHeaderAt, same _ (by omega) (by omega)]
  have used : usedSlots layout after = usedSlots layout disk := by
    apply Finset.filter_congr
    intro slot member
    rw [slots slot (Finset.mem_range.mp member)]
  have inside :
    ∀ slot name number, entries slot = some (name, number) → slot < slotCount layout := by
    intro slot name number holds
    by_contra beyond
    rw [dir.outside slot (.inr (not_lt.mp beyond))] at holds
    contradiction
  have positive : 0 < slotCount layout := by
    rw [slotCount]
    omega
  constructor
  · rw [slots 0 positive]
    exact dir.root
  · exact dir.outside
  · intro slot low high vacant
    rw [slots slot high]
    exact dir.unused slot low high vacant
  · intro slot name number holds
    rw [slots slot (inside slot name number holds)]
    exact dir.stored slot name number holds
  · exact dir.named
  · exact dir.text
  · exact dir.distinct
  · intro number below
    rw [inodes number below]
    exact dir.valid number below
  · intro slot name number holds
    rw [inodes number (dir.named slot name number holds).2.2.2]
    exact dir.listed slot name number holds
  · intro number low high unlisted
    rw [inodes number high]
    exact dir.free number low high unlisted
  · rw [header, used]
    exact dir.counted
  · rw [header]
    exact dir.checked

theorem inside (dir : DirOk layout disk entries) {slot : Nat} {name : Name} {number : Nat}
    (holds : entries slot = some (name, number)) : 0 < slot ∧ slot < slotCount layout := by
  constructor
  · rcases Nat.eq_zero_or_pos slot with zero | positive
    · rw [dir.outside slot (.inl zero)] at holds
      contradiction
    · exact positive
  · by_contra beyond
    rw [dir.outside slot (.inr (not_lt.mp beyond))] at holds
    contradiction

/-- A slot holds a name when it lists it. -/
theorem holdsName_iff (dir : DirOk layout disk entries) {name : Name}
    (short : name.length < dirNameMax) (other : name ≠ [47]) {slot : Nat}
    (below : slot < slotCount layout) :
    HoldsName (slotAt layout disk) name slot ↔ ∃ number, entries slot = some (name, number) := by
  constructor
  · rintro ⟨used, matching⟩
    rcases Nat.eq_zero_or_pos slot with zero | positive
    · rw [zero, dir.root, formatRootEntry_eq, DirEntry.matches_for (by decide) short] at matching
      exact absurd matching.symm other
    · cases holds : entries slot with
      | none =>
          rw [dir.unused slot positive below holds] at used
          contradiction
      | some entry =>
          obtain ⟨stored, number⟩ := entry
          rw [dir.stored slot stored number holds,
            DirEntry.matches_for (dir.named slot stored number holds).1 short] at matching
          exact ⟨number, by rw [matching]⟩
  · rintro ⟨number, holds⟩
    rw [HoldsName, dir.stored slot name number holds]
    exact ⟨DirEntry.used_for _ _, (DirEntry.matches_for short short _ _).mpr rfl⟩

/-- The first slot holds the name of the root. -/
theorem root_holdsName (dir : DirOk layout disk entries) :
    HoldsName (slotAt layout disk) [47] 0 := by
  rw [HoldsName, dir.root, formatRootEntry_eq]
  exact ⟨by decide, (DirEntry.matches_for (by decide) (by decide) _ _).mpr rfl⟩

/-- An unused slot lists nothing. -/
theorem entries_eq_none (dir : DirOk layout disk entries) {slot : Nat}
    (vacant : (slotAt layout disk slot).used = false) : entries slot = none := by
  cases holds : entries slot with
  | none => rfl
  | some entry =>
      rw [dir.stored slot entry.1 entry.2 holds, DirEntry.used_for] at vacant
      contradiction

/-- The slots in use are few. -/
theorem few (dir : DirOk layout disk entries) (sound : layout.Sound) :
    (dirHeaderAt layout disk).numEntries.toNat < 2 ^ 32 := by
  have most := sound.inodeCount_le
  have count := sound.dirCount_eq
  rw [dir.counted]
  have all := Finset.card_filter_le (Finset.range (slotCount layout))
    fun slot => (slotAt layout disk slot).used = true
  have slots : slotCount layout ≤ 131072 := by
    rw [slotCount]
    omega
  rw [Finset.card_range] at all
  rw [usedSlots]
  omega

/-- Listing a file in an unused slot. -/
theorem add (dir : DirOk layout disk entries) (sound : layout.Sound) {slot number : Nat}
    {name : Name}
    {inode : NebulaInode} {after : Disk} (vacant : (slotAt layout disk slot).used = false)
    (below : slot < slotCount layout) (short : name.length < dirNameMax) (other : name ≠ [47])
    (text : ∀ byte ∈ name, byte ≠ 0) (absent : ∀ index number, entries index ≠ some (name, number))
    (positive : 0 < number) (bounded : number < layout.inodePageBlockCount)
    (unlisted : ¬ entries.Lists number) (type : inode.type = inodeTypeFile)
    (numbered : inode.inodeNum.toNat = number) (valid : inode.Valid)
    (slots : ∀ index, slotAt layout after index =
      if index = slot then .for name (UInt64.ofNat number) dirFlagFile
        else slotAt layout disk index)
    (inodes : ∀ index < layout.inodePageBlockCount, inodeAt layout after index =
      if index = number then inode else inodeAt layout disk index)
    (header : dirHeaderAt layout after = (dirHeaderAt layout disk).adjust 1) :
    DirOk layout after (Function.update entries slot (some (name, number))) := by
  have root : slot ≠ 0 := by
    intro zero
    rw [zero, dir.root, formatRootEntry_eq] at vacant
    exact absurd vacant (by decide)
  have empty := dir.entries_eq_none vacant
  have cases : ∀ index stored listed,
      Function.update entries slot (some (name, number)) index = some (stored, listed) →
      index = slot ∧ stored = name ∧ listed = number ∨
        index ≠ slot ∧ entries index = some (stored, listed) := by
    intro index stored listed holds
    by_cases here : index = slot
    · rw [here, Function.update_self, Option.some.injEq, Prod.mk.injEq] at holds
      exact .inl ⟨here, holds.1.symm, holds.2.symm⟩
    · rw [Function.update_of_ne here] at holds
      exact .inr ⟨here, holds⟩
  have used : usedSlots layout after = insert slot (usedSlots layout disk) := by
    ext index
    simp only [usedSlots, Finset.mem_filter, Finset.mem_insert, Finset.mem_range, slots]
    split_ifs with here
    · simp [here, below, DirEntry.used_for]
    · simp [here]
  constructor
  · rw [slots, if_neg root.symm]
    exact dir.root
  · intro index beyond
    rw [Function.update_of_ne (by omega)]
    exact dir.outside index beyond
  · intro index low high none
    have here : index ≠ slot := by
      intro same
      rw [same, Function.update_self] at none
      contradiction
    rw [Function.update_of_ne here] at none
    rw [slots, if_neg here]
    exact dir.unused index low high none
  · intro index stored listed holds
    rcases cases index stored listed holds with ⟨rfl, rfl, rfl⟩ | ⟨there, holds⟩
    · rw [slots, if_pos rfl]
    · rw [slots, if_neg there]
      exact dir.stored index stored listed holds
  · intro index stored listed holds
    rcases cases index stored listed holds with ⟨rfl, rfl, rfl⟩ | ⟨there, holds⟩
    · exact ⟨short, other, positive, bounded⟩
    · exact dir.named index stored listed holds
  · intro index stored listed holds
    rcases cases index stored listed holds with ⟨rfl, rfl, rfl⟩ | ⟨there, holds⟩
    · exact text
    · exact dir.text index stored listed holds
  · intro index index' stored stored' listed listed' holds holds' same
    rcases cases index stored listed holds with ⟨rfl, rfl, rfl⟩ | ⟨there, old⟩ <;>
      rcases cases index' stored' listed' holds' with ⟨rfl, rfl, rfl⟩ | ⟨there', old'⟩
    · rfl
    · rcases same with rfl | rfl
      · exact absurd old' (absent _ _)
      · exact absurd ⟨_, _, old'⟩ unlisted
    · rcases same with rfl | rfl
      · exact absurd old (absent _ _)
      · exact absurd ⟨_, _, old⟩ unlisted
    · exact dir.distinct index index' stored stored' listed listed' old old' same
  · intro index inside
    rw [inodes index inside]
    split_ifs
    · exact valid
    · exact dir.valid index inside
  · intro index stored listed holds
    rcases cases index stored listed holds with ⟨rfl, rfl, rfl⟩ | ⟨there, old⟩
    · rw [inodes _ bounded, if_pos rfl]
      exact ⟨type, numbered⟩
    · rw [inodes _ (dir.named index stored listed old).2.2.2, if_neg]
      · exact dir.listed index stored listed old
      · rintro rfl
        exact unlisted ⟨_, _, old⟩
  · intro index low high unlisted'
    have apart : index ≠ number := by
      rintro rfl
      exact unlisted' ⟨slot, name, Function.update_self ..⟩
    rw [inodes index high, if_neg apart]
    refine dir.free index low high ?_
    rintro ⟨index', stored, holds⟩
    refine unlisted' ⟨index', stored, ?_⟩
    rw [Function.update_of_ne, holds]
    rintro rfl
    rw [empty] at holds
    contradiction
  · rw [header, numEntries_adjust_one (dir.few sound), dir.counted, used,
      Finset.card_insert_of_notMem]
    simp [usedSlots, vacant]
  · rw [header]
    exact dirHeaderChecksum_adjust _ _

/-- Taking a file off its slot. -/
theorem remove (dir : DirOk layout disk entries) {slot number : Nat} {name : Name} {after : Disk}
    (here : entries slot = some (name, number))
    (slots : ∀ index, slotAt layout after index =
      if index = slot then .zero else slotAt layout disk index)
    (inodes : ∀ index < layout.inodePageBlockCount, inodeAt layout after index =
      if index = number then .zero else inodeAt layout disk index)
    (header : dirHeaderAt layout after = (dirHeaderAt layout disk).adjust (-1)) :
    DirOk layout after (Function.update entries slot none) := by
  obtain ⟨positive, below⟩ := dir.inside here
  have taken : (slotAt layout disk slot).used = true := by
    rw [dir.stored slot name number here]
    exact DirEntry.used_for _ _
  have cases : ∀ index stored listed,
      Function.update entries slot none index = some (stored, listed) →
      index ≠ slot ∧ entries index = some (stored, listed) := by
    intro index stored listed holds
    by_cases same : index = slot
    · rw [same, Function.update_self] at holds
      contradiction
    · rw [Function.update_of_ne same] at holds
      exact ⟨same, holds⟩
  have used : usedSlots layout after = (usedSlots layout disk).erase slot := by
    ext index
    simp only [usedSlots, Finset.mem_filter, Finset.mem_erase, Finset.mem_range, slots]
    split_ifs with same
    · simp [same]
    · simp [same]
  have member : slot ∈ usedSlots layout disk := by
    simp [usedSlots, below, taken]
  constructor
  · rw [slots, if_neg (by omega)]
    exact dir.root
  · intro index beyond
    rw [Function.update_of_ne (by omega)]
    exact dir.outside index beyond
  · intro index low high none
    rw [slots]
    split_ifs with same
    · exact DirEntry.used_zero
    · rw [Function.update_of_ne same] at none
      exact dir.unused index low high none
  · intro index stored listed holds
    obtain ⟨there, holds⟩ := cases index stored listed holds
    rw [slots, if_neg there]
    exact dir.stored index stored listed holds
  · intro index stored listed holds
    exact dir.named index stored listed (cases index stored listed holds).2
  · intro index stored listed holds
    exact dir.text index stored listed (cases index stored listed holds).2
  · intro index index' stored stored' listed listed' holds holds' same
    exact dir.distinct index index' stored stored' listed listed'
      (cases index stored listed holds).2 (cases index' stored' listed' holds').2 same
  · intro index inside
    rw [inodes index inside]
    split_ifs
    · exact fun live => absurd rfl live
    · exact dir.valid index inside
  · intro index stored listed holds
    obtain ⟨there, holds⟩ := cases index stored listed holds
    rw [inodes _ (dir.named index stored listed holds).2.2.2, if_neg]
    · exact dir.listed index stored listed holds
    · intro same
      exact there (dir.distinct index slot stored name listed number holds here (.inr same))
  · intro index low high unlisted
    rw [inodes index high]
    split_ifs with same
    · rfl
    · refine dir.free index low high ?_
      rintro ⟨index', stored, holds⟩
      refine unlisted ⟨index', stored, ?_⟩
      rw [Function.update_of_ne, holds]
      rintro rfl
      rw [here, Option.some.injEq, Prod.mk.injEq] at holds
      exact same holds.2.symm
  · have some : 1 ≤ (dirHeaderAt layout disk).numEntries.toNat := by
      rw [dir.counted]
      exact Finset.card_pos.mpr ⟨slot, member⟩
    rw [header, numEntries_adjust_neg_one some, dir.counted, used, Finset.card_erase_of_mem member]
  · rw [header]
    exact dirHeaderChecksum_adjust _ _

/-- Changing an inode that no slot lists, into one that is free again, or a listed one or the root
into another version of itself. -/
theorem setInode (dir : DirOk layout disk entries) {number : Nat} {inode : NebulaInode}
    {after : Disk} (slots : ∀ index, slotAt layout after index = slotAt layout disk index)
    (inodes : ∀ index < layout.inodePageBlockCount, inodeAt layout after index =
      if index = number then inode else inodeAt layout disk index)
    (header : dirHeaderAt layout after = dirHeaderAt layout disk) (valid : inode.Valid)
    (kept : entries.Lists number → inode.type = inodeTypeFile ∧ inode.inodeNum.toNat = number)
    (freed : 0 < number → ¬ entries.Lists number → inode.type = inodeTypeFree) :
    DirOk layout after entries := by
  have used : usedSlots layout after = usedSlots layout disk := by
    apply Finset.filter_congr
    intro slot _
    rw [slots]
  constructor
  · rw [slots]
    exact dir.root
  · exact dir.outside
  · intro index low high none
    rw [slots]
    exact dir.unused index low high none
  · intro index stored listed holds
    rw [slots]
    exact dir.stored index stored listed holds
  · exact dir.named
  · exact dir.text
  · exact dir.distinct
  · intro index inside
    rw [inodes index inside]
    split_ifs
    · exact valid
    · exact dir.valid index inside
  · intro index stored listed holds
    rw [inodes _ (dir.named index stored listed holds).2.2.2]
    split_ifs with same
    · rw [same]
      exact kept ⟨index, stored, by rw [holds, same]⟩
    · exact dir.listed index stored listed holds
  · intro index low high unlisted
    rw [inodes index high]
    split_ifs with same
    · exact freed (by rwa [← same]) (by rwa [← same])
    · exact dir.free index low high unlisted
  · rw [header, used]
    exact dir.counted
  · rw [header]
    exact dir.checked

end DirOk

end MiniFs
