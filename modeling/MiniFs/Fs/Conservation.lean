import MiniFs.Fs.Isolation
import MiniFs.Fs.OneHandle

/-!
# Blocks are conserved

When no file is open, the blocks in use are the metadata and the extents of the inodes in use, each
block in one extent, and the free count and the sizes of the extents make up the data region.
-/

namespace MiniFs

open Fs

/-- The block belongs to an extent of an inode in use, as the device has it. -/
def StoredIn (layout : NebulaLayout) (disk : Disk) (lba : Nat) (place : Nat × Fin 248) : Prop :=
  place.1 < layout.inodePageBlockCount ∧ (inodeAt layout disk place.1).type ≠ inodeTypeFree ∧
    ((inodeAt layout disk place.1).extents place.2).emLba.toNat ≤ lba ∧
    lba < ((inodeAt layout disk place.1).extents place.2).emLba.toNat +
      ((inodeAt layout disk place.1).extents place.2).sizeBlocks

/-- The blocks of the extents of the inodes in use. -/
def storedBlocks (layout : NebulaLayout) (disk : Disk) : Nat :=
  ∑ number ∈ Finset.range layout.inodePageBlockCount with
    (inodeAt layout disk number).type ≠ inodeTypeFree,
    ∑ index : Fin 248, ((inodeAt layout disk number).extents index).sizeBlocks

/-- No block is lost and none has two owners. -/
structure Conserved (layout : NebulaLayout) (state : FsState) : Prop where
  exact : ∀ lba < layout.capacityBlocks, state.taken lba = true ↔
    lbaIsMetadata layout lba = true ∨ ∃ place, StoredIn layout state.disk lba place
  inData : ∀ {lba place}, StoredIn layout state.disk lba place → InData layout lba
  once : ∀ {lba place place'}, StoredIn layout state.disk lba place →
    StoredIn layout state.disk lba place' → place = place'
  mirror : ∀ page < layout.bitmapBlockCount,
    state.disk.content (layout.bitmapLba + page) = state.mount.bitmap.l0Bits page

section Conserve

variable {uuid : Bytes 16} {layout : NebulaLayout} {origin : Disk} {system : FsSystem}
  {entries : Entries}

theorem StoredIn.holds {disk : Disk} {lba : Nat} {place : Nat × Fin 248}
    (stored : StoredIn layout disk lba place) : (inodeAt layout disk place.1).Holds lba := by
  obtain ⟨-, -, low, high⟩ := stored
  exact ⟨place.2, lba - ((inodeAt layout disk place.1).extents place.2).emLba.toNat, by omega,
    by omega⟩

theorem OneHandle.conserved (one : OneHandle layout system entries)
    (inv : FsInv uuid layout origin system entries)
    (closed : ∀ index, system.handles index = none) :
    Conserved layout system.state := by
  have holder : ∀ {lba place}, StoredIn layout system.state.disk lba place →
      system.Holder layout entries place.1 (inodeAt layout system.state.disk place.1) :=
    fun stored => .stored ((inv.live_iff stored.1).mpr stored.2.1)
  have inData : ∀ {lba place}, StoredIn layout system.state.disk lba place → InData layout lba :=
    fun stored => inv.owners.inData (holder stored) stored.holds
  refine ⟨fun lba below => ⟨fun taken => ?_, ?_⟩, inData, ?_, inv.solid.exact.bitmap.mirror⟩
  · by_cases metadata : lbaIsMetadata layout lba = true
    · exact .inl metadata
    have data : InData layout lba := by
      rw [lbaIsMetadata] at metadata
      simp only [Bool.or_eq_true, decide_eq_true_eq, not_or] at metadata
      exact ⟨by omega, by omega⟩
    right
    obtain ⟨number, inode, live | @⟨index, handle, held⟩, index', offset, inside, rfl⟩ :=
      one.used lba data taken
    · exact ⟨(number, index'), inv.live_lt live, inv.live_used live, Nat.le_add_right _ _,
        Nat.add_lt_add_left inside _⟩
    · rw [closed index] at held
      contradiction
  · rintro (metadata | ⟨place, stored⟩)
    · exact inv.owners.guarded lba below metadata
    · exact inv.owners.taken (holder stored) stored.holds
  · rintro lba ⟨number, index⟩ ⟨number', index'⟩ stored stored'
    obtain rfl : number = number' :=
      inv.owners.apart (holder stored) (holder stored') stored.holds stored'.holds
    obtain ⟨-, -, low, high⟩ := stored
    have mapped := inv.owners.mapped (holder stored')
    obtain ⟨-, -, low', high'⟩ := stored'
    rw [mapped.disjoint index index'
      (lba - ((inodeAt layout system.state.disk number).extents index).emLba.toNat)
      (lba - ((inodeAt layout system.state.disk number).extents index').emLba.toNat)
      (by simp only at *; omega) (by simp only at *; omega) (by simp only at *; omega)]

/-- The blocks of the files are counted. -/
theorem Conserved.count_stored {state : FsState} (conserved : Conserved layout state)
    (sound : layout.Sound) :
    Nat.count (fun lba => state.taken lba = true ∧ lbaIsMetadata layout lba = false)
      layout.capacityBlocks = storedBlocks layout state.disk := by
  have member :
    ∀ place : Nat × Fin 248, place ∈ ({number ∈ Finset.range layout.inodePageBlockCount |
      (inodeAt layout state.disk number).type ≠ inodeTypeFree} ×ˢ Finset.univ) ↔
      place.1 < layout.inodePageBlockCount ∧
        (inodeAt layout state.disk place.1).type ≠ inodeTypeFree := by
    intro place
    simp only [Finset.mem_product, Finset.mem_filter, Finset.mem_range, Finset.mem_univ, and_true]
  rw [storedBlocks, ← Finset.sum_product']
  apply Nat.count_biUnion _ fun place =>
    ((inodeAt layout state.disk place.1).extents place.2).emLba.toNat
  · intro lba below
    rw [conserved.exact lba below]
    constructor
    · rintro ⟨metadata | ⟨place, inside, used, range⟩, data⟩
      · rw [data] at metadata
        contradiction
      · exact ⟨place, (member place).mpr ⟨inside, used⟩, range⟩
    · rintro ⟨place, among, range⟩
      obtain ⟨inside, used⟩ := (member place).mp among
      have stored : StoredIn layout state.disk lba place := ⟨inside, used, range⟩
      have data := conserved.inData stored
      exact ⟨.inr ⟨place, stored⟩, lbaIsMetadata_data data.1 data.2⟩
  · intro place among lba low high
    obtain ⟨inside, used⟩ := (member place).mp among
    have stored : StoredIn layout state.disk lba place := ⟨inside, used, low, high⟩
    exact (conserved.inData stored).lt_capacity sound
  · intro place among place' among' lba low high low' high'
    obtain ⟨inside, used⟩ := (member place).mp among
    obtain ⟨inside', used'⟩ := (member place').mp among'
    exact conserved.once ⟨inside, used, low, high⟩ ⟨inside', used', low', high'⟩

end Conserve

/-- In every run with at most one handle on a file, whenever no file is open, the blocks in use are
the metadata and the stored extents, each block in one extent, and the free count is that of the
fresh device less the blocks of the extents. -/
theorem blocks_conserved {options : FormatOptions} {layout : NebulaLayout} {volume : Volume}
    (fresh : volume.Fresh options layout) (small : layout.capacityBlocks ≤ 2 ^ 32)
    {reached : FsSystem} (run : FsReach FsCall.OneHandle (.fresh volume) reached)
    (closed : ∀ index, reached.handles index = none) :
    Conserved layout reached.state ∧
      (nebulaHbmTotalFree reached.state.mount.bitmap).toNat +
        storedBlocks layout reached.state.disk =
        (nebulaHbmTotalFree volume.mount.bitmap).toNat := by
  have sound := fresh.spec.1
  have fits := sound.pages_fit small
  obtain ⟨entries, inv, one⟩ := run.oneHandle fresh small
  have conserved := one.conserved inv closed
  refine ⟨conserved, ?_⟩
  have exact := inv.solid.exact
  have before := fresh.exact fits
  rw [nebulaHbmTotalFree, nebulaHbmTotalFree, exact.bitmap.device_count sound exact.capacity_lt,
    before.bitmap.device_count sound before.capacity_lt, freeBelow, freeBelow,
    ← conserved.count_stored sound]
  apply Nat.count_add_count
  · intro lba below
    have guarded := inv.owners.guarded lba below
    rw [fresh.bits fits below]
    rw [FsState.taken] at guarded ⊢
    constructor
    · intro data
      cases bitGet reached.state.mount.bitmap.l0Bits lba with
      | false => exact .inl rfl
      | true => exact .inr ⟨rfl, data⟩
    · rintro (free | ⟨-, data⟩)
      · rw [Bool.eq_false_iff]
        intro metadata
        rw [guarded metadata] at free
        contradiction
      · exact data
  · intro lba below free stored
    rw [FsState.taken, free] at stored
    exact absurd stored.1 Bool.false_ne_true

/-- A variable without a handle stays so where a call is not for it. -/
theorem FsSystem.perform_other {system : FsSystem} {call : FsCall} {other : Nat} (now : UInt64)
    (apart : call.holds ≠ some other) (empty : system.handles other = none) :
    (system.perform call now).2.handles other = none := by
  have set : ∀ (state : FsState) {index : Nat} (handle : Option Handle), index ≠ other →
      ((system.withState state).setHandle index handle).handles other = none := by
    intro state index handle different
    simp only [FsSystem.setHandle, FsSystem.withState]
    rwa [Function.update_of_ne different.symm]
  cases call with
  | create index name mode =>
      simp only [FsCall.holds, ne_eq, Option.some.injEq] at apart
      simp only [FsSystem.perform]
      split
      · exact set _ _ apart
      · exact empty
  | «open» index name flags =>
      simp only [FsCall.holds, ne_eq, Option.some.injEq] at apart
      simp only [FsSystem.perform]
      split
      · exact set _ _ apart
      · exact empty
  | write index offset data =>
      simp only [FsCall.holds, ne_eq, Option.some.injEq] at apart
      simp only [FsSystem.perform]
      split
      · exact empty
      · split
        · exact set _ _ apart
        · exact set _ _ apart
        · exact empty
  | read index offset len =>
      simp only [FsCall.holds, ne_eq, Option.some.injEq] at apart
      simp only [FsSystem.perform]
      split
      · exact empty
      · split
        · exact set _ _ apart
        · exact set _ _ apart
        · exact empty
  | close index =>
      simp only [FsCall.holds, ne_eq, Option.some.injEq] at apart
      simp only [FsSystem.perform]
      split
      · exact empty
      · split
        · exact set _ _ apart
        · exact set _ _ apart
  | delete name =>
      simp only [FsSystem.perform]
      split
      · simp only [FsSystem.dropHandles, FsSystem.withState, empty, Option.filter_none]
      · exact empty
  | lookup name =>
      simp only [FsSystem.perform]
      split <;> exact empty
  | readdir =>
      simp only [FsSystem.perform]
      split <;> exact empty
  | remount heap =>
      simp only [FsSystem.perform]
      split <;> exact empty

theorem FsSystem.perform_close (system : FsSystem) (index : Nat) (now : UInt64) :
    (system.perform (.close index) now).2.handles index = none := by
  simp only [FsSystem.perform]
  split
  · assumption
  · split
    · exact Function.update_self ..
    · exact Function.update_self ..

theorem blocks_conserved_plainDisk : ∃ layout mount reached,
    Volume.Fresh plainOptions layout ⟨plainDisk 65536 (by decide), mount⟩ ∧
    reached = ((((FsSystem.fresh ⟨plainDisk 65536 (by decide), mount⟩).perform
      (.create 0 [97] 0) 0).2.perform (.write 0 5000 [1, 2, 3]) 1).2.perform (.close 0) 2).2 ∧
    Conserved layout reached.state ∧
    (nebulaHbmTotalFree reached.state.mount.bitmap).toNat + storedBlocks layout reached.state.disk =
      (nebulaHbmTotalFree mount.bitmap).toNat := by
  obtain ⟨layout, mount, fresh, total⟩ := plainDisk_fresh
  have run : FsReach FsCall.OneHandle (.fresh ⟨plainDisk 65536 (by decide), mount⟩) _ :=
    ((FsRun.refl.call (.create 0 [97] 0) 0 ⟨rfl, List.forall_mem_singleton.mpr (by decide)⟩).call
      (.write 0 5000 [1, 2, 3]) 1 trivial).call (.close 0) 2 trivial
  refine ⟨layout, mount, _, fresh, rfl, blocks_conserved fresh (by omega) run fun index => ?_⟩
  by_cases here : index = 0
  · rw [here]
    exact FsSystem.perform_close _ _ _
  · have apart : some 0 ≠ some index := by simpa using Ne.symm here
    refine FsSystem.perform_other 2 apart (FsSystem.perform_other 1 apart ?_)
    exact FsSystem.perform_other 0 apart rfl

end MiniFs
