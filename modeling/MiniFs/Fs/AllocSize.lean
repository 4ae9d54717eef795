import MiniFs.Fs.Overlap

/-!
# The allocated size

`alloc_size_bytes` is counted anew only by a write that ends past the size of the file.  It is the
size of the extents as long as no other write maps a block.
-/

namespace MiniFs

open Fs

namespace NebulaInode

/-- Blocks of all extents. -/
def blockCount (inode : NebulaInode) : Nat :=
  ((List.finRange 248).map fun index => (inode.extents index).sizeBlocks).sum

/-- The allocated size is the size of the extents. -/
def Tracks (inode : NebulaInode) : Prop := inode.allocSizeBytes.toNat = 4096 * inode.blockCount

end NebulaInode

theorem ExtentMapEntry.sizeBlocks_lt (entry : ExtentMapEntry) : entry.sizeBlocks < 2 ^ 24 := by
  have mask : (0x00FFFFFF : UInt32).toNat = 2 ^ 24 - 1 := rfl
  rw [sizeBlocks, UInt32.toNat_and, mask, Nat.and_two_pow_sub_one_eq_mod]
  exact Nat.mod_lt _ (by decide)

/-- Sizes of up to 2^24 blocks are summed without overflow. -/
theorem foldl_blockBytes {α : Type} {size : α → Nat} (small : ∀ item, size item < 2 ^ 24)
    (items : List α) (total : UInt64) (room : total.toNat + 2 ^ 36 * items.length < 2 ^ 64) :
    (items.foldl (fun total item => total + UInt64.ofNat (size item) * 4096) total).toNat =
      total.toNat + 4096 * (items.map size).sum := by
  induction items generalizing total with
  | nil => simp
  | cons item rest ih =>
      have bound := small item
      rw [List.length_cons, Nat.mul_add, Nat.mul_one] at room
      have step : (total + UInt64.ofNat (size item) * 4096).toNat =
        total.toNat + 4096 * size item := by
        simp only [UInt64.toNat_add, UInt64.toNat_mul, UInt64.toNat_ofNat', UInt64.reduceToNat]
        omega
      rw [List.foldl_cons, ih _ (by rw [step]; omega), step, List.map_cons, List.sum_cons,
        Nat.mul_add, Nat.add_assoc]

theorem NebulaInode.extentBytes_toNat (inode : NebulaInode) :
    inode.extentBytes.toNat = 4096 * inode.blockCount := by
  rw [extentBytes, foldl_blockBytes (fun index => (inode.extents index).sizeBlocks_lt) _ _
    (by simp), blockCount]
  simp

/-- An appended extent adds its blocks. -/
theorem NebulaInode.blockCount_append {inode after : NebulaInode} {blk n lba : Nat}
    (few : n < 2 ^ 24) (appended : extentAppend inode blk n lba = some after) :
    after.blockCount = inode.blockCount + n := by
  obtain ⟨here, empty, -, rfl⟩ := extentAppend_eq_some appended
  rw [blockCount, blockCount, ← Fin.sum_univ_def, ← Fin.sum_univ_def]
  rw [← Finset.add_sum_erase _ _ (Finset.mem_univ here),
    ← Finset.add_sum_erase _ _ (Finset.mem_univ here)]
  have others : ∀ index ∈ Finset.univ.erase here,
      (Function.update inode.extents here (.for blk n lba) index).sizeBlocks =
        (inode.extents index).sizeBlocks := by
    intro index away
    rw [Function.update_of_ne (Finset.ne_of_mem_erase away)]
  rw [Finset.sum_congr rfl others]
  simp only [Function.update_self]
  rw [ExtentMapEntry.sizeBlocks_for few, empty]
  omega

section Written

variable {inode : NebulaInode} {reach now : UInt64}

/-- A write past the size counts the extents. -/
theorem NebulaInode.written_tracks (past : inode.sizeBytes < reach) :
    (inode.written reach now).Tracks := by
  have counted : (inode.written reach now).allocSizeBytes = inode.extentBytes := by
    simp only [NebulaInode.written, NebulaInode.seal, NebulaInode.grow, if_pos past]
  rw [Tracks, counted, extentBytes_toNat, blockCount, blockCount, written_extents]

theorem NebulaInode.written_sizeBytes (past : inode.sizeBytes < reach) :
    (inode.written reach now).sizeBytes = reach := by
  simp only [NebulaInode.written, NebulaInode.seal, NebulaInode.grow, if_pos past]

theorem NebulaInode.written_sizeBytes_within (within : ¬ inode.sizeBytes < reach) :
    (inode.written reach now).sizeBytes = inode.sizeBytes := by
  simp only [NebulaInode.written, NebulaInode.seal, NebulaInode.grow, if_neg within]

theorem NebulaInode.written_allocSizeBytes (within : ¬ inode.sizeBytes < reach) :
    (inode.written reach now).allocSizeBytes = inode.allocSizeBytes := by
  simp only [NebulaInode.written, NebulaInode.seal, NebulaInode.grow, if_neg within]

theorem NebulaInode.Tracks.written (tracks : inode.Tracks) : (inode.written reach now).Tracks := by
  by_cases past : inode.sizeBytes < reach
  · exact written_tracks past
  · rw [Tracks, written_allocSizeBytes past, tracks, blockCount, blockCount, written_extents]

/-- A write that appends an extent below the size loses count of it. -/
theorem NebulaInode.Tracks.not_written (tracks : inode.Tracks) {after : NebulaInode}
    {blk n lba : Nat} (positive : 0 < n) (few : n < 2 ^ 24)
    (appended : extentAppend inode blk n lba = some after) (within : ¬ inode.sizeBytes < reach) :
    ¬ (after.written reach now).Tracks := by
  have more := blockCount_append few appended
  obtain ⟨_, -, -, rest⟩ := extentAppend_eq_some appended
  have size : after.sizeBytes = inode.sizeBytes := by rw [rest]
  have alloc : after.allocSizeBytes = inode.allocSizeBytes := by rw [rest]
  have counts : (after.written reach now).blockCount = after.blockCount := by
    rw [blockCount, written_extents, ← blockCount]
  rw [Tracks, written_allocSizeBytes (by rw [size]; exact within), alloc, tracks, counts, more]
  omega

end Written

/-- A write that ends past the size, or one that maps no block, on a handle whose last write came to
its end. -/
def Counting (file : NebulaFile) (offset : UInt64) (data : List UInt8) : Prop :=
  data ≠ [] ∧ file.inode.sizeBytes < offset + UInt64.ofNat data.length ∨
    file.dirty = false ∧
      ∀ written < data.length, file.inode.maps (roundOff offset written / 4096) = true

/-- A write that is turned away or counts. -/
def KeepsCount (state : FsState) (file : NebulaFile) (offset : UInt64) (data : List UInt8) : Prop :=
  Refused state file offset data ∨ Counting file offset data

/-- A handle whose last write came to its end has counted, and so has the stored inode. -/
def Counted (layout : NebulaLayout) (state : FsState) (file : NebulaFile) : Prop :=
  file.dirty = false →
    file.inode.Tracks ∧ (inodeAt layout state.disk file.inode.inodeNum.toNat).Tracks

/-- Rounds over mapped blocks leave the inode alone. -/
theorem mapped_rule {inode : NebulaInode} {offset : UInt64} {data : List UInt8}
    (mapped : ∀ written < data.length, inode.maps (roundOff offset written / 4096) = true) :
    RoundRule offset data fun _ current => current = inode where
  found := fun same _ _ => same
  added := by
    rintro written current inode' lba rfl more unknown -
    have known := mapped written more
    rw [NebulaInode.maps_eq_false.mpr unknown] at known
    contradiction

section Count

variable {uuid : Bytes 16} {layout : NebulaLayout} {state after : FsState} {file next : NebulaFile}
  {offset now : UInt64} {data : List UInt8} {result : Except Errno Nat}

theorem not_inBitmap_inode (sound : layout.Sound) (number : Nat) :
    ¬ InBitmap layout (layout.inodePageLba + number) := by
  have stream := sound.streamMap_eq
  have inode := sound.inode_eq
  rw [InBitmap]
  omega

theorem Counted.keep (counted : Counted layout state file) (sound : layout.Sound)
    (keeps : KeepsBlocks layout state after) : Counted layout after file := by
  intro clean
  obtain ⟨memory, stored⟩ := counted clean
  refine ⟨memory, ?_⟩
  rw [inodeAt, keeps _ (not_inBitmap_inode sound _)]
  exact stored

theorem counted_stored {inode : NebulaInode} {number : Nat} (tracks : inode.Tracks)
    (here : inode.inodeNum.toNat = number) (flags : UInt32) (dirty : Bool) :
    Counted layout (state.withDisk (state.disk.push [inodeWrite layout number inode]))
      ⟨inode, flags, dirty⟩ := by
  intro _
  refine ⟨tracks, ?_⟩
  rw [FsState.disk_withDisk, here, inodeAt_store, if_pos rfl]
  exact tracks

/-- A counting write that comes to its end has counted. -/
theorem fileWrite_counted (ready : state.Ready uuid layout)
    (inside : file.inode.inodeNum.toNat < layout.inodePageBlockCount)
    (counted : Counted layout state file) (keeps : KeepsCount state file offset data)
    (wrote : (nebulaFileWrite file offset data now).run state = (.ok (result, next), after)) :
    after.Ready uuid layout ∧ next.inode.inodeNum = file.inode.inodeNum ∧
      Counted layout after next ∧ (result = .ok data.length → next.dirty = false) := by
  rcases keeps with refused | counting
  · obtain ⟨⟨error, rfl⟩, rfl, ready', writes⟩ := ready.refusal refused wrote
    exact ⟨ready', rfl, counted.keep ready.placed.sound writes, by rintro ⟨⟩⟩
  by_cases writable : file.flags &&& openWriteOnly = 0
  · rw [fileWrite_refused writable] at wrote
    cases wrote
    exact ⟨ready, rfl, counted, fun wrong => nomatch wrong⟩
  by_cases empty : data = []
  · rw [empty, fileWrite_nothing writable] at wrote
    cases wrote
    refine ⟨ready, rfl, counted, fun _ => ?_⟩
    rcases counting with ⟨some, -⟩ | ⟨clean, -⟩
    · exact absurd empty some
    · exact clean
  have ends : ∀ {Q : Nat → NebulaInode → Prop}, RoundRule offset data Q → Q 0 file.inode →
      (∀ inode, Q data.length inode → inode = { file.inode with extents := inode.extents } →
        (inode.written (offset + UInt64.ofNat data.length) now).Tracks) →
      after.Ready uuid layout ∧ next.inode.inodeNum = file.inode.inodeNum ∧
        Counted layout after next ∧ (result = .ok data.length → next.dirty = false) := by
    intro Q rule holds tracks
    obtain ⟨stop, n, last, middle, leaves, ready', clean, ended⟩ := fileWrite_rule rule ready inside
      holds writable empty now
    have number : last.inode.inodeNum = file.inode.inodeNum := by rw [leaves.rest]
    rcases ended with ⟨stopped, error, ran⟩ | ⟨ended, ran⟩
    · have short := leaves.short stopped
      rw [ran] at wrote
      cases wrote
      refine ⟨ready', number, ?_, fun full => ?_⟩
      · rcases leaves.dirty with rfl | dirty
        · exact fun isClean => counted.keep ready.placed.sound (clean isClean) isClean
        · intro isClean
          rw [dirty] at isClean
          contradiction
      · rw [shortCount] at full
        split_ifs at full
        simp only [Except.ok.injEq] at full
        omega
    · obtain ⟨rfl, holds'⟩ := leaves.whole ended
      rw [ran] at wrote
      cases wrote
      have written := tracks last.inode holds' leaves.rest
      exact ⟨ready'.withDisk rfl, (last.inode.written_inodeNum _ _).trans number,
        counted_stored written (by rw [NebulaInode.written_inodeNum, number]) _ _, fun _ => rfl⟩
  rcases counting with ⟨-, past⟩ | ⟨clean, mapped⟩
  · refine ends (trivial_rule offset data) trivial fun inode _ rest => ?_
    apply NebulaInode.written_tracks
    rw [rest]
    exact past
  · refine ends (mapped_rule mapped) rfl fun inode same _ => ?_
    rw [same]
    exact (counted clean).1.written

/-- After every write that returns its full length, in a run of writes that are turned away or
count, the allocated size is the size of the extents, in memory and on the device. -/
theorem alloc_size_tracked {file₁ file₂ : NebulaFile} {state₁ state₂ : FsState}
    (ready : state.Ready uuid layout)
    (inside : file.inode.inodeNum.toNat < layout.inodePageBlockCount) (tracks : file.inode.Tracks)
    (stored : (inodeAt layout state.disk file.inode.inodeNum.toNat).Tracks)
    (run : WriteRun KeepsCount file state file₁ state₁)
    (keeps : KeepsCount state₁ file₁ offset data)
    (wrote : (nebulaFileWrite file₁ offset data now).run state₁ =
      (.ok (.ok data.length, file₂), state₂)) :
    file₂.inode.Tracks ∧ (inodeAt layout state₂.disk file.inode.inodeNum.toNat).Tracks := by
  have kept : state₁.Ready uuid layout ∧ file₁.inode.inodeNum = file.inode.inodeNum ∧
      Counted layout state₁ file₁ := by
    clear keeps wrote
    induction run with
    | nil => exact ⟨ready, rfl, fun _ => ⟨tracks, stored⟩⟩
    | write run keeps wrote ih =>
        obtain ⟨ready₁, number₁, counted₁⟩ := ih
        obtain ⟨ready₂, number₂, counted₂, -⟩ :=
          fileWrite_counted ready₁ (number₁ ▸ inside) counted₁ keeps wrote
        exact ⟨ready₂, number₂.trans number₁, counted₂⟩
  obtain ⟨ready₁, number₁, counted₁⟩ := kept
  obtain ⟨-, number₂, counted₂, clean₂⟩ :=
    fileWrite_counted ready₁ (number₁ ▸ inside) counted₁ keeps wrote
  have counted := counted₂ (clean₂ rfl)
  rwa [number₂, number₁] at counted

theorem createdFile_tracks (number : Nat) (mode : UInt32) (now : UInt64) :
    (createdFile number mode now).inode.Tracks := by
  have none : ∀ index, (createdFile number mode now |>.inode.extents index).sizeBlocks = 0 :=
    fun index => by rw [createdFile_extents]; decide
  rw [NebulaInode.Tracks, NebulaInode.blockCount, List.map_congr_left fun index _ => none index,
    List.map_const', List.sum_replicate_nat, Nat.mul_zero, Nat.mul_zero]
  rfl

theorem alloc_size_tracked_first : ∃ file file₁ file₂ file₃ state state₁ state₂ state₃,
    (nebulaFileWrite file 4096 [7] 0).run state = (.ok (.ok 1, file₁), state₁) ∧
    (nebulaFileWrite file₁ 8192 [8] 0).run state₁ = (.ok (.ok 1, file₂), state₂) ∧
    (nebulaFileWrite file₂ 4096 [9] 0).run state₂ = (.ok (.ok 1, file₃), state₃) ∧
    file₃.inode.sizeBytes = 8193 ∧ file₃.inode.Tracks := by
  obtain ⟨layout, -, number, state, total, -, -, first⟩ :=
    @plainDisk_created 65536 le_rfl (by decide) (by decide)
  obtain ⟨lba, lba', inode, inode', state₁, state₂, state₃, appended, wrote, appended', wrote',
    again⟩ := first.write_again (by omega)
  obtain ⟨_, -, -, rest⟩ := extentAppend_eq_some appended
  obtain ⟨_, -, -, rest'⟩ := extentAppend_eq_some appended'
  have tracks := createdFile_tracks number 0 0
  have stored := tracks
  rw [← first.stored] at stored
  have size : inode.sizeBytes = 0 := by
    rw [rest]
    rfl
  have grown : (inode.written 4097 0).sizeBytes = 4097 :=
    NebulaInode.written_sizeBytes (by rw [size]; decide)
  have size' : inode'.sizeBytes = 4097 := by
    rw [rest']
    exact grown
  have size'' : (inode'.written 8193 0).sizeBytes = 8193 :=
    NebulaInode.written_sizeBytes (by rw [size']; decide)
  have counting : Counting (createdFile number 0 0) 4096 [7] :=
    .inl ⟨by simp, show (0 : UInt64) < 4097 by decide⟩
  have counting' : Counting ⟨inode.written 4097 0, openReadWrite, false⟩ 8192 [8] := by
    refine .inl ⟨by simp, ?_⟩
    simp only [grown]
    decide
  have counting'' : Counting ⟨inode'.written 8193 0, openReadWrite, false⟩ 4096 [9] := by
    refine .inr ⟨rfl, fun written few => ?_⟩
    obtain rfl : written = 0 := Nat.lt_one_iff.mp few
    rw [NebulaInode.maps_written (by decide) appended',
      NebulaInode.maps_written (by decide) appended]
    simp [roundOff]
  have size₃ : ((inode'.written 8193 0).written 4097 0).sizeBytes = 8193 := by
    rw [NebulaInode.written_sizeBytes_within (by rw [size'']; decide), size'']
  refine ⟨_, _, _, _, state, state₁, state₂, state₃, wrote, wrote', again, size₃,
    (alloc_size_tracked (first.solid (by omega)).ready first.inside tracks stored
      (.write (.write .nil (.inr counting) wrote) (.inr counting') wrote') (.inr counting'')
      again).1⟩

/-- A write into a hole below the end of a file is not counted. -/
theorem alloc_size_stale : ¬ ∀ (uuid : Bytes 16) (layout : NebulaLayout)
    (file file₁ file₂ : NebulaFile)
    (state state₁ state₂ : FsState) (offset : UInt64) (data : List UInt8) (now : UInt64),
    state.Ready uuid layout → file.inode.inodeNum.toNat < layout.inodePageBlockCount →
    file.dirty = false → file.inode.Tracks →
    (inodeAt layout state.disk file.inode.inodeNum.toNat).Tracks →
    WriteRun (fun _ _ _ _ => True) file state file₁ state₁ →
    (nebulaFileWrite file₁ offset data now).run state₁ = (.ok (.ok data.length, file₂), state₂) →
    file₂.inode.Tracks ∧ (inodeAt layout state₂.disk file.inode.inodeNum.toNat).Tracks := by
  intro claim
  obtain ⟨layout, -, number, state, total, -, -, first⟩ :=
    @plainDisk_created 65536 le_rfl (by decide) (by decide)
  have sound := first.exact.sound
  have room := sound.data_room
  have tail := sound.allocRootsTail_eq
  have tracks := createdFile_tracks number 0 0
  have stored := tracks
  rw [← first.stored] at stored
  have always := fun file₁ file₂ state₁ state₂ offset data now => claim _ layout
    (createdFile number 0 0) file₁ file₂ state state₁ state₂ offset data now
    (first.solid (by omega)).ready first.inside rfl tracks stored
  -- one byte in block 2, and one in block 0
  obtain ⟨lba, lba', inode, inode', state₁, state₂, appended, wrote₁, appended', wrote₂, -⟩ :=
    @FirstFile.write_twice _ _ _ first (by omega) 8192 0 (by decide) (by decide) (by decide) 7 7
  obtain ⟨_, -, -, rest⟩ := extentAppend_eq_some appended
  have size₁ : (inode.written (8192 + 1) 0).sizeBytes = 8193 :=
    NebulaInode.written_sizeBytes (by rw [rest]; show (0 : UInt64) < 8193; decide)
  have tracks₁ := (always _ _ _ _ _ _ _ .nil wrote₁).1
  have tracks₂ := (always _ _ _ _ _ _ _ (.write .nil trivial wrote₁) wrote₂).1
  exact tracks₁.not_written (by decide) (by decide) appended' (by rw [size₁]; decide) tracks₂

end Count

end MiniFs
