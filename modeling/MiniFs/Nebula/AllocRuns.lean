import Mathlib.Logic.Relation
import MiniFs.Nebula.Summaries

/-!
# Runs of the allocator

A mounted device under any sequence of allocations and frees.  The summaries stay exact and the
pages on the device stay those of the loaded bitmap.  What keeps the metadata out of an allocation
is only that its bits are set, so a free that names metadata blocks exposes them.
-/

namespace MiniFs

/-- A mounted device: what is on it, and what the mount has loaded. -/
structure Volume where
  disk : Disk
  mount : NebulaMount

/-- The two calls of the allocator. -/
inductive AllocCall
  | alloc (n : UInt32)
  | free (lba : UInt64) (n : UInt32)

/-- Perform a call.  A successful allocation returns its first block. -/
def AllocCall.perform (call : AllocCall) (outcome : IoOutcome) (volume : Volume) :
    Except Errno (Option Nat) × Volume :=
  match call with
  | .alloc n =>
      match nebulaBlockAlloc outcome volume.disk volume.mount n.toNat with
      | (result, disk, mount) => (result.map some, ⟨disk, mount⟩)
  | .free lba n =>
      match nebulaBlockFree outcome volume.disk volume.mount lba.toNat n.toNat with
      | (result, disk, mount) => (result.map fun _ => none, ⟨disk, mount⟩)

/-- One allowed call. -/
def AllocStep (allowed : Volume → AllocCall → IoOutcome → Prop) (before after : Volume) : Prop :=
  ∃ call outcome, allowed before call outcome ∧ (call.perform outcome before).2 = after

/-- The range of a free does not wrap. -/
def AllocCall.Unwrapped : AllocCall → Prop
  | .alloc _ => True
  | .free lba n => lba.toNat + n.toNat < 2 ^ 64

/-- A page with the same bits is the same page. -/
theorem page_ext {pages pages' : Nat → Block} {page : Nat}
    (same : ∀ index < 32768, bitGet pages (page * 32768 + index) =
      bitGet pages' (page * 32768 + index)) : pages page = pages' page := by
  have whole : Function.update pages' page (pages page) = pages' := by
    apply bitmap_ext
    intro index
    by_cases here : index / 32768 = page
    · have bits := same (index % 32768) (Nat.mod_lt _ (by decide))
      rw [show page * 32768 + index % 32768 = index by omega] at bits
      rw [← bits]
      exact bitGet_congr (by rw [here, Function.update_self])
    · exact bitGet_congr (by rw [Function.update_of_ne here])
  have at_page := congrFun whole page
  rwa [Function.update_self] at at_page

theorem setRange_off_page {bits : Nat → Block} {start n page : Nat}
    (off : page < start / 32768 ∨ (start + n - 1) / 32768 < page) :
    setRange bits start n page = bits page := by
  apply page_ext
  intro index below
  rw [bitGet_setRange, decide_eq_false (by omega), Bool.false_or]

theorem clrRange_off_page {bits : Nat → Block} {start n page : Nat}
    (off : page < start / 32768 ∨ (start + n - 1) / 32768 < page) :
    clrRange bits start n page = bits page := by
  apply page_ext
  intro index below
  rw [bitGet_clrRange, decide_eq_false (by omega), Bool.not_false, Bool.true_and]

/-- Writing the pages of a run brings the device up to a bitmap that differs on these pages only. -/
theorem mirror_pageWrites {disk : Disk} {mount : NebulaMount} {bits : Nat → Block}
    {bitmapLba count start n : Nat} (positive : 0 < n) (lba : mount.sb.bitmapLba.toNat = bitmapLba)
    (mirror : ∀ page < count, disk.content (bitmapLba + page) = bits page)
    (off : ∀ page, page < start / 32768 ∨ (start + n - 1) / 32768 < page →
      mount.bitmap.l0Bits page = bits page) :
    ∀ page < count, (disk.push (pageWrites mount start n)).content (bitmapLba + page) =
      mount.bitmap.l0Bits page := by
  intro page below
  rw [Disk.content_push, ← lba]
  by_cases touched : start / bitmapBitsPerPage ≤ page ∧ page ≤ (start + n - 1) / bitmapBitsPerPage
  · exact applyWrites_pageWrites _ touched.1 touched.2
  · rw [applyWrites_of_not_mem, lba, mirror page below, off page]
    · simp only [bitmapBitsPerPage] at touched
      omega
    · intro write member
      obtain ⟨written, low, high, rfl⟩ := mem_pageWrites positive member
      simp only [ne_eq, Nat.add_left_cancel_iff]
      rintro rfl
      exact touched ⟨low, high⟩

/-- A volume whose mount agrees with the device. -/
structure Volume.Exact (uuid : Bytes 16) (layout : NebulaLayout) (volume : Volume) : Prop where
  sound : layout.Sound
  capacity : volume.disk.capacityBlocks = layout.capacityBlocks
  fits : layout.bitmapBlockCount < 2 ^ 32
  sb : volume.mount.sb = formatSuperblock uuid layout
  bitmap : volume.mount.bitmap.Exact layout volume.disk

namespace Volume.Exact

variable {uuid : Bytes 16} {layout : NebulaLayout} {volume : Volume}

theorem capacity_lt (exact : volume.Exact uuid layout) : layout.capacityBlocks < 2 ^ 52 :=
  exact.capacity ▸ volume.disk.capacity_lt

theorem records (exact : volume.Exact uuid layout) : volume.mount.sb.Records uuid layout := by
  rw [exact.sb]
  exact formatSuperblock_records exact.sound exact.capacity_lt uuid

theorem searchedBits_eq (exact : volume.Exact uuid layout) :
    searchedBits volume.mount = layout.capacityBlocks := by
  rw [searchedBits, exact.bitmap.numPages, exact.records.deviceCapacityBlocks]
  exact min_eq_right exact.sound.bitmap_covers

/-- A bitmap that differs on the pages of a run, once these are written. -/
theorem push_pages (exact : volume.Exact uuid layout) (bitmap : HierBitmap) (start : Nat) {n : Nat}
    (positive : 0 < n) (off : ∀ page, page < start / 32768 ∨ (start + n - 1) / 32768 < page →
      bitmap.l0Bits page = volume.mount.bitmap.l0Bits page) :
    ∀ page < layout.bitmapBlockCount,
      (volume.disk.push (pageWrites (volume.mount.withBitmap bitmap) start n)).content
        (layout.bitmapLba + page) = bitmap.l0Bits page :=
  mirror_pageWrites positive exact.records.bitmapLba exact.bitmap.mirror off

/-- Writes to other blocks than the bitmap. -/
theorem push_apart (exact : volume.Exact uuid layout) {writes : List (Nat × Block)}
    (apart : ∀ write ∈ writes, ∀ page < layout.bitmapBlockCount,
      write.1 ≠ layout.bitmapLba + page) :
    Volume.Exact uuid layout ⟨volume.disk.push writes, volume.mount⟩ := by
  refine ⟨exact.sound, exact.capacity, exact.fits, exact.sb, ?_⟩
  refine { exact.bitmap with mirror := fun page inside => ?_ }
  rw [Disk.content_push, applyWrites_of_not_mem]
  · exact exact.bitmap.mirror page inside
  · exact fun write member => apart write member page inside

theorem flush (exact : volume.Exact uuid layout) :
    Volume.Exact uuid layout ⟨volume.disk.flush, volume.mount⟩ :=
  ⟨exact.sound, exact.capacity, exact.fits, exact.sb, { exact.bitmap with
    mirror := exact.bitmap.mirror }⟩

theorem alloc (exact : volume.Exact uuid layout) {outcome : IoOutcome} (atomic : outcome.Atomic)
    (n : Nat) :
    Volume.Exact uuid layout ⟨(nebulaBlockAlloc outcome volume.disk volume.mount n).2.1,
      (nebulaBlockAlloc outcome volume.disk volume.mount n).2.2⟩ := by
  have result := nebulaBlockAlloc_result outcome volume.disk volume.mount n
  have unchanged := @nebulaBlockAlloc_atomic outcome atomic volume.disk volume.mount n
  generalize nebulaBlockAlloc outcome volume.disk volume.mount n = done at result unchanged
  cases result with
  | ok start positive free inside least room =>
      rw [exact.searchedBits_eq] at inside
      have mirror := exact.push_pages (markRun volume.mount.bitmap start n) start positive
        fun page off => by
          rw [markRun_l0Bits]
          exact setRange_off_page off
      simp only [markRun_l0Bits] at mirror
      exact ⟨exact.sound, exact.capacity, exact.fits, exact.sb,
        exact.bitmap.mark exact.sound positive inside free mirror⟩
  | error reason start part sub inside =>
      rw [unchanged rfl]
      exact exact

theorem free (exact : volume.Exact uuid layout) {outcome : IoOutcome} (atomic : outcome.Atomic)
    {lba n : Nat} (unwrapped : lba + n < 2 ^ 64) :
    Volume.Exact uuid layout ⟨(nebulaBlockFree outcome volume.disk volume.mount lba n).2.1,
      (nebulaBlockFree outcome volume.disk volume.mount lba n).2.2⟩ := by
  have unchanged := @nebulaBlockFree_atomic outcome atomic volume.disk volume.mount lba n unwrapped
  by_cases accepted : FreeAccepted volume.mount lba n
  · obtain ⟨positive, inside, taken⟩ := accepted.taken unwrapped
    have result := nebulaBlockFree_result outcome volume.disk accepted unwrapped
    generalize nebulaBlockFree outcome volume.disk volume.mount lba n = done at result unchanged
    cases result with
    | ok =>
        rw [exact.records.deviceCapacityBlocks] at inside
        have mirror := exact.push_pages (unmarkRun volume.mount.bitmap lba n) lba positive
          fun page off => by
            rw [unmarkRun_l0Bits]
            exact clrRange_off_page off
        simp only [unmarkRun_l0Bits] at mirror
        exact ⟨exact.sound, exact.capacity, exact.fits, exact.sb,
          exact.bitmap.unmark exact.sound positive inside taken mirror⟩
    | error reason part sub =>
        rw [unchanged rfl]
        exact exact
  · obtain ⟨reason, refused⟩ := @nebulaBlockFree_refused outcome volume.disk _ _ _ accepted
    rw [refused]
    exact exact

/-- A call keeps a volume exact. -/
theorem perform (exact : volume.Exact uuid layout) {call : AllocCall} {outcome : IoOutcome}
    (atomic : outcome.Atomic) (unwrapped : call.Unwrapped) :
    (call.perform outcome volume).2.Exact uuid layout := by
  cases call with
  | alloc n => exact exact.alloc atomic n.toNat
  | free lba n => exact exact.free atomic unwrapped

/-- Runs of calls whose page writes succeed or fail without effect keep a volume exact. -/
theorem reaches (exact : volume.Exact uuid layout) {reached : Volume}
    (run : Relation.ReflTransGen
      (AllocStep fun _ call outcome => call.Unwrapped ∧ outcome.Atomic) volume reached) :
    reached.Exact uuid layout := by
  induction run with
  | refl => exact exact
  | tail _ step ih =>
      obtain ⟨call, outcome, ⟨unwrapped, atomic⟩, rfl⟩ := step
      exact ih.perform atomic unwrapped

end Volume.Exact

/-- A call that fails without effect leaves the volume as it was. -/
theorem AllocCall.perform_error {call : AllocCall} {outcome : IoOutcome} {volume : Volume}
    (atomic : outcome.Atomic) (unwrapped : call.Unwrapped) {error : Errno}
    (failed : (call.perform outcome volume).1 = .error error) :
    (call.perform outcome volume).2 = volume := by
  cases call with
  | alloc n =>
      have unchanged :=
        @nebulaBlockAlloc_atomic outcome atomic volume.disk volume.mount n.toNat error
      simp only [AllocCall.perform] at failed ⊢
      cases result : (nebulaBlockAlloc outcome volume.disk volume.mount n.toNat).1 with
      | ok start => simp [result, Except.map] at failed
      | error reason =>
          have same : reason = error := by simpa [result, Except.map] using failed
          exact congrArg (fun after : Disk × NebulaMount => Volume.mk after.1 after.2)
            (unchanged (same ▸ result))
  | free lba n =>
      have unchanged := @nebulaBlockFree_atomic outcome atomic volume.disk volume.mount lba.toNat
        n.toNat unwrapped error
      simp only [AllocCall.perform] at failed ⊢
      cases result : (nebulaBlockFree outcome volume.disk volume.mount lba.toNat n.toNat).1 with
      | ok done => simp [result, Except.map] at failed
      | error reason =>
          have same : reason = error := by simpa [result, Except.map] using failed
          exact congrArg (fun after : Disk × NebulaMount => Volume.mk after.1 after.2)
            (unchanged (same ▸ result))

/-- A formatted device with its first mount is exact. -/
theorem Volume.exact_of_mount {options : FormatOptions} {layout : NebulaLayout} {disk : Disk}
    {mount : NebulaMount} (sound : layout.Sound)
    (capacity : disk.capacityBlocks = layout.capacityBlocks)
    (fits : layout.bitmapBlockCount < 2 ^ 32) (formatted : Formatted options layout disk.content)
    (mounted : Mountable.Mounted options layout disk mount) :
    Volume.Exact options.uuid layout ⟨disk, mount⟩ where
  sound := sound
  capacity := capacity
  fits := fits
  sb := mounted.sb
  bitmap :=
    { totalBlocks := mounted.totalBlocks
      numPages := mounted.numPages
      numGroups := mounted.numGroups
      past := fun index beyond inside => by
        rw [mounted.fresh_l0Bits formatted.bitmap inside, decide_eq_false (by omega),
          Bool.false_and]
      l1FreeCounts := fun group => by rw [mounted.l1FreeCounts]
      l2TotalFree := mounted.l2TotalFree
      mirror := fun page inside => (mounted.l0Bits page inside).symm }

/-- Mounting a device again gives the bitmap it was mounted with. -/
theorem Volume.Exact.remount {options : FormatOptions} {layout : NebulaLayout} {volume : Volume}
    (exact : volume.Exact options.uuid layout) (mountable : Mountable options layout volume.disk)
    (heap : Nat → Block) :
    ∃ mount, nebulaMountDo heap volume.disk = .ok mount ∧
      Volume.Exact options.uuid layout ⟨volume.disk, mount⟩ ∧
      ∀ lba < layout.capacityBlocks,
        bitGet mount.bitmap.l0Bits lba = bitGet volume.mount.bitmap.l0Bits lba := by
  have covers := exact.sound.bitmap_covers
  obtain ⟨mount, mounts, mounted⟩ := mountable.nebulaMountDo_ok heap exact.fits
  have pages : ∀ page < layout.bitmapBlockCount,
      mount.bitmap.l0Bits page = volume.mount.bitmap.l0Bits page := by
    intro page inside
    rw [mounted.l0Bits page inside, exact.bitmap.mirror page inside]
  have bits : ∀ index < layout.bitmapBlockCount * 32768,
      bitGet mount.bitmap.l0Bits index = bitGet volume.mount.bitmap.l0Bits index := by
    intro index inside
    exact bitGet_congr (pages _ (Nat.div_lt_of_lt_mul (by rwa [Nat.mul_comm])))
  refine ⟨mount, mounts, ⟨exact.sound, exact.capacity, exact.fits, mounted.sb, ?_⟩,
    fun lba below => bits lba (by omega)⟩
  exact
    { totalBlocks := mounted.totalBlocks
      numPages := mounted.numPages
      numGroups := mounted.numGroups
      past := fun index beyond inside => by
        rw [bits index inside]
        exact exact.bitmap.past index beyond inside
      l1FreeCounts := fun group => by rw [mounted.l1FreeCounts]
      l2TotalFree := mounted.l2TotalFree
      mirror := fun page inside => (mounted.l0Bits page inside).symm }

/-- A device that has just been formatted and mounted. -/
structure Volume.Fresh (options : FormatOptions) (layout : NebulaLayout)
    (volume : Volume) : Prop where
  formatted : ∃ raw, nebulaLayoutComputeEx raw.capacityBlocks options.inodeSize = .ok layout ∧
    nebulaFormat options raw = (.ok (), volume.disk)
  mounted : ∃ heap, nebulaMountDo heap volume.disk = .ok volume.mount

namespace Volume.Fresh

variable {options : FormatOptions} {layout : NebulaLayout} {volume : Volume}

theorem spec (fresh : volume.Fresh options layout) :
    layout.Sound ∧ volume.disk.capacityBlocks = layout.capacityBlocks ∧
      volume.disk.cells.pending = [] ∧ Formatted options layout volume.disk.content := by
  obtain ⟨raw, computed, done⟩ := fresh.formatted
  obtain ⟨sound, capacity, -⟩ := nebulaLayoutComputeEx_sound raw.capacity_lt computed
  rw [nebulaFormat_eq computed, Prod.mk.injEq] at done
  rw [← done.2]
  refine ⟨sound, capacity.symm, rfl, ?_⟩
  rw [Disk.content_flush, Disk.content_push]
  exact formatted_of_requests sound

theorem mountable (fresh : volume.Fresh options layout) : Mountable options layout volume.disk := by
  obtain ⟨sound, capacity, -, formatted⟩ := fresh.spec
  exact Mountable.of_formatted sound capacity formatted

theorem sb (fresh : volume.Fresh options layout) :
    volume.mount.sb = formatSuperblock options.uuid layout := by
  obtain ⟨heap, mounts⟩ := fresh.mounted
  obtain ⟨label, superblock, -⟩ := nebulaMountDo_ok_iff.mp mounts
  rw [fresh.mountable.nebulaMbrRead_eq, Except.ok.injEq] at label
  rw [← label, fresh.mountable.mountSuperblock_eq, Except.ok.injEq] at superblock
  exact superblock.symm

/-- On a device whose page count fits the read request, the mount agrees with the device. -/
theorem exact (fresh : volume.Fresh options layout) (fits : layout.bitmapBlockCount < 2 ^ 32) :
    volume.Exact options.uuid layout := by
  obtain ⟨sound, capacity, -, formatted⟩ := fresh.spec
  obtain ⟨heap, mounts⟩ := fresh.mounted
  obtain ⟨mount, again, mounted⟩ := fresh.mountable.nebulaMountDo_ok heap fits
  rw [mounts, Except.ok.injEq] at again
  rw [← again] at mounted
  exact Volume.exact_of_mount sound capacity fits formatted mounted

/-- The metadata and nothing else is in use. -/
theorem bits (fresh : volume.Fresh options layout) (fits : layout.bitmapBlockCount < 2 ^ 32)
    {index : Nat} (inside : index < layout.capacityBlocks) :
    bitGet volume.mount.bitmap.l0Bits index = lbaIsMetadata layout index := by
  obtain ⟨sound, -, -, formatted⟩ := fresh.spec
  have covers := sound.bitmap_covers
  obtain ⟨heap, mounts⟩ := fresh.mounted
  obtain ⟨mount, again, mounted⟩ := fresh.mountable.nebulaMountDo_ok heap fits
  rw [mounts, Except.ok.injEq] at again
  rw [again, mounted.fresh_l0Bits formatted.bitmap (by omega), decide_eq_true inside, Bool.true_and]

end Volume.Fresh

/-! ## Calls without faults -/

/-- A free run is counted by an exact free count. -/
theorem run_le_count {used : Nat → Bool} {total start n : Nat} (free : FreeRun used n start)
    (inside : start + n ≤ total) : n ≤ Nat.count (fun index => used index = false) total := by
  have removed := @Nat.count_remove_interval (fun index => used index = false)
    (fun index => used index = false ∧ ¬ (start ≤ index ∧ index < start + n)) _ _ start n total
    inside
    (fun index low high => by
      have clear := free (index - start) (by omega)
      rwa [Nat.add_sub_cancel' low] at clear)
    fun _ _ => Iff.rfl
  omega

/-- A volume with a run taken, on the device and in the mount. -/
def Volume.marked (volume : Volume) (start n : Nat) : Volume where
  disk := volume.disk.push
    (pageWrites (volume.mount.withBitmap (markRun volume.mount.bitmap start n)) start n)
  mount := volume.mount.withBitmap (markRun volume.mount.bitmap start n)

/-- A volume with a run freed. -/
def Volume.unmarked (volume : Volume) (start n : Nat) : Volume where
  disk := volume.disk.push
    (pageWrites (volume.mount.withBitmap (unmarkRun volume.mount.bitmap start n)) start n)
  mount := volume.mount.withBitmap (unmarkRun volume.mount.bitmap start n)

theorem Volume.marked_bit (volume : Volume) (start n index : Nat) :
    bitGet (volume.marked start n).mount.bitmap.l0Bits index =
      (decide (start ≤ index ∧ index < start + n) || bitGet volume.mount.bitmap.l0Bits index) := by
  rw [Volume.marked, NebulaMount.withBitmap_bitmap, markRun_l0Bits, bitGet_setRange]

/-- Taking a free run and freeing it leaves every bit as it was. -/
theorem Volume.unmarked_marked_bit {volume : Volume} {start n : Nat}
    (free : FreeRun (bitGet volume.mount.bitmap.l0Bits) n start) (index : Nat) :
    bitGet ((volume.marked start n).unmarked start n).mount.bitmap.l0Bits index =
      bitGet volume.mount.bitmap.l0Bits index := by
  rw [Volume.unmarked, NebulaMount.withBitmap_bitmap, unmarkRun_l0Bits, bitGet_clrRange, marked_bit]
  by_cases here : start ≤ index ∧ index < start + n
  · have clear := free (index - start) (by omega)
    rw [Nat.add_sub_cancel' here.1] at clear
    rw [decide_eq_true here, Bool.not_true, Bool.false_and, clear]
  · rw [decide_eq_false here, Bool.not_false, Bool.true_and, Bool.false_or]

namespace Volume.Exact

variable {uuid : Bytes 16} {layout : NebulaLayout} {volume : Volume}

/-- The pages of a run inside the device lie inside the device. -/
theorem pages_inside (exact : volume.Exact uuid layout) (bitmap : HierBitmap) {start n : Nat}
    (positive : 0 < n) (inside : start + n ≤ layout.capacityBlocks) :
    ioRange volume.disk ((volume.mount.withBitmap bitmap).sb.bitmapLba.toNat + start /
      bitmapBitsPerPage)
      ((List.range ((start + n - 1) / bitmapBitsPerPage - start / bitmapBitsPerPage + 1)).map
        fun index => (volume.mount.withBitmap bitmap).bitmap.l0Bits
          (start / bitmapBitsPerPage + index)).length = .ok () := by
  have sound := exact.sound
  have covers := sound.bitmap_covers
  have data := sound.dataStart_eq
  have room := sound.data_room
  have dir := sound.dir_eq
  have inode := sound.inode_eq
  have stream := sound.streamMap_eq
  have tail := sound.allocRootsTail_eq
  have capacity := exact.capacity
  have order : start / 32768 ≤ (start + n - 1) / 32768 := Nat.div_le_div_right (by omega)
  have last : (start + n - 1) / 32768 < layout.bitmapBlockCount := by omega
  apply ioRange_eq_ok
  rw [List.length_map, List.length_range, NebulaMount.withBitmap_sb, exact.records.bitmapLba]
  simp only [bitmapBitsPerPage]
  omega

/-- The pages of a run inside the device are written without a fault. -/
theorem flush_ok (exact : volume.Exact uuid layout) (bitmap : HierBitmap) {start n : Nat}
    (positive : 0 < n) (inside : start + n ≤ layout.capacityBlocks) :
    flushDirtyPages .ok volume.disk (volume.mount.withBitmap bitmap) start (start + n - 1) =
      (.ok (), volume.disk.push (pageWrites (volume.mount.withBitmap bitmap) start n)) := by
  simp only [flushDirtyPages, nebulaIoWrite, exact.pages_inside bitmap positive inside]
  rfl

theorem free_ok (exact : volume.Exact uuid layout) {lba n : Nat}
    (accepted : FreeAccepted volume.mount lba n) (unwrapped : lba + n < 2 ^ 64) :
    nebulaBlockFree .ok volume.disk volume.mount lba n =
      (.ok (),
        volume.disk.push (pageWrites
          (volume.mount.withBitmap (unmarkRun volume.mount.bitmap lba n)) lba n),
        volume.mount.withBitmap (unmarkRun volume.mount.bitmap lba n)) := by
  obtain ⟨positive, inside, taken⟩ := accepted.taken unwrapped
  rw [exact.records.deviceCapacityBlocks] at inside
  rw [nebulaBlockFree_accepted .ok _ accepted unwrapped, exact.flush_ok _ positive inside]

/-- A free run is counted. -/
theorem run_le_free (exact : volume.Exact uuid layout) {start n : Nat}
    (free : FreeRun (bitGet volume.mount.bitmap.l0Bits) n start)
    (inside : start + n ≤ layout.capacityBlocks) : n ≤ volume.mount.bitmap.l2TotalFree.toNat := by
  rw [exact.bitmap.device_count exact.sound exact.capacity_lt, freeBelow]
  exact run_le_count free inside

/-- Without faults an allocation takes the first free run, and fails only where there is none. -/
theorem alloc_ok (exact : volume.Exact uuid layout) {start n : Nat} (positive : 0 < n)
    (found : firstRun (bitGet volume.mount.bitmap.l0Bits) n layout.capacityBlocks = some start) :
    nebulaBlockAlloc .ok volume.disk volume.mount n =
      (.ok start,
        volume.disk.push (pageWrites
          (volume.mount.withBitmap (markRun volume.mount.bitmap start n)) start n),
        volume.mount.withBitmap (markRun volume.mount.bitmap start n)) := by
  obtain ⟨free, inside, -⟩ := firstRun_eq_some positive found
  have enough := exact.run_le_free free inside
  rw [nebulaBlockAlloc, if_neg (by omega), if_neg (by omega), exact.searchedBits_eq, found]
  simp only [claimRun, exact.flush_ok _ positive inside]

/-- An allocation where a run is free starts at it or before. -/
theorem alloc_before (exact : volume.Exact uuid layout) {n run : Nat} (positive : 0 < n)
    (free : FreeRun (bitGet volume.mount.bitmap.l0Bits) n run)
    (inside : run + n ≤ layout.capacityBlocks) :
    ∃ start disk mount, start ≤ run ∧
      nebulaBlockAlloc .ok volume.disk volume.mount n = (.ok start, disk, mount) ∧
      Volume.Exact uuid layout ⟨disk, mount⟩ ∧
      ∀ index, start + n ≤ index →
        bitGet mount.bitmap.l0Bits index = bitGet volume.mount.bitmap.l0Bits index := by
  obtain ⟨start, before, found⟩ := firstRun_before positive free inside
  have allocated := exact.alloc_ok positive found
  have later := exact.alloc (show IoOutcome.ok.Atomic from trivial) n
  rw [allocated] at later
  refine ⟨start, _, _, before, allocated, later, fun index past => ?_⟩
  rw [NebulaMount.withBitmap_bitmap, markRun_l0Bits, bitGet_setRange, decide_eq_false (by omega),
    Bool.false_or]

/-- An allocation leaves free what is behind a free run. -/
theorem alloc_next (exact : volume.Exact uuid layout) {n rest run : Nat} (positive : 0 < n)
    (free : FreeRun (bitGet volume.mount.bitmap.l0Bits) (n + rest) run)
    (inside : run + (n + rest) ≤ layout.capacityBlocks) :
    ∃ start disk mount, nebulaBlockAlloc .ok volume.disk volume.mount n = (.ok start, disk, mount) ∧
      Volume.Exact uuid layout ⟨disk, mount⟩ ∧
      FreeRun (bitGet mount.bitmap.l0Bits) rest (run + n) := by
  obtain ⟨start, disk, mount, before, allocated, later, kept⟩ := exact.alloc_before positive
    (fun offset below => free offset (by omega)) (by omega)
  refine ⟨start, disk, mount, allocated, later, fun offset below => ?_⟩
  rw [kept _ (by omega), Nat.add_assoc]
  exact free _ (by omega)

/-- Where a run of twice the blocks is free, two allocations succeed. -/
theorem alloc_twice (exact : volume.Exact uuid layout) {n run : Nat} (positive : 0 < n)
    (free : FreeRun (bitGet volume.mount.bitmap.l0Bits) (n + n) run)
    (inside : run + (n + n) ≤ layout.capacityBlocks) :
    ∃ start disk mount start' disk' mount',
      nebulaBlockAlloc .ok volume.disk volume.mount n = (.ok start, disk, mount) ∧
      nebulaBlockAlloc .ok disk mount n = (.ok start', disk', mount') := by
  obtain ⟨start, disk, mount, allocated, later, rest⟩ := exact.alloc_next positive free inside
  obtain ⟨start', disk', mount', -, again, -⟩ := later.alloc_before positive rest (by omega)
  exact ⟨start, disk, mount, start', disk', mount', allocated, again⟩

theorem alloc_none (exact : volume.Exact uuid layout) {n : Nat} (positive : 0 < n)
    (missing : firstRun (bitGet volume.mount.bitmap.l0Bits) n layout.capacityBlocks = none) :
    nebulaBlockAlloc .ok volume.disk volume.mount n =
      (.error .ENOSPC, volume.disk, volume.mount) := by
  rw [nebulaBlockAlloc, if_neg (by omega), exact.searchedBits_eq, missing]
  split_ifs <;> rfl

theorem free_fails (exact : volume.Exact uuid layout) {lba n : Nat}
    (accepted : FreeAccepted volume.mount lba n) (unwrapped : lba + n < 2 ^ 64)
    (landed : Nat → Bool) :
    (nebulaBlockFree (.fail landed) volume.disk volume.mount lba n).1 = .error Errno.EIO := by
  obtain ⟨positive, inside, taken⟩ := accepted.taken unwrapped
  rw [exact.records.deviceCapacityBlocks] at inside
  rw [nebulaBlockFree_accepted _ _ accepted unwrapped]
  simp only [flushDirtyPages, nebulaIoWrite, exact.pages_inside _ positive inside]

theorem perform_alloc (exact : volume.Exact uuid layout) {n : UInt32} {start : Nat}
    (positive : 0 < n.toNat)
    (found : firstRun (bitGet volume.mount.bitmap.l0Bits) n.toNat layout.capacityBlocks =
      some start) :
    (AllocCall.alloc n).perform .ok volume = (.ok (some start), volume.marked start n.toNat) := by
  simp only [AllocCall.perform, exact.alloc_ok positive found, Except.map, Volume.marked]

theorem perform_free (exact : volume.Exact uuid layout) {lba : UInt64} {n : UInt32}
    (accepted : FreeAccepted volume.mount lba.toNat n.toNat)
    (unwrapped : lba.toNat + n.toNat < 2 ^ 64) :
    (AllocCall.free lba n).perform .ok volume =
      (.ok none, volume.unmarked lba.toNat n.toNat) := by
  simp only [AllocCall.perform, exact.free_ok accepted unwrapped, Except.map, Volume.unmarked]

/-- A free whose page write fails changes nothing. -/
theorem perform_free_fails (exact : volume.Exact uuid layout) {lba : UInt64} {n : UInt32}
    (accepted : FreeAccepted volume.mount lba.toNat n.toNat)
    (unwrapped : lba.toNat + n.toNat < 2 ^ 64) :
    (AllocCall.free lba n).perform (.fail fun _ => false) volume = (.error Errno.EIO, volume) := by
  have error : ((AllocCall.free lba n).perform (.fail fun _ => false) volume).1 =
      .error Errno.EIO := by
    simp only [AllocCall.perform, exact.free_fails accepted unwrapped, Except.map]
  exact Prod.ext error (AllocCall.perform_error (fun _ => rfl) unwrapped error)

/-- A run is taken, a free of it fails, it is freed, and it is taken again. -/
theorem alloc_free_alloc (exact : volume.Exact uuid layout) {n : UInt32} {run : Nat}
    (positive : 0 < n.toNat) (free : FreeRun (bitGet volume.mount.bitmap.l0Bits) n.toNat run)
    (inside : run + n.toNat ≤ layout.capacityBlocks) :
    ∃ lba taken freed again, lba.toNat + n.toNat < 2 ^ 64 ∧
      (AllocCall.alloc n).perform .ok volume = (.ok (some lba.toNat), taken) ∧
      (AllocCall.free lba n).perform (.fail fun _ => false) taken = (.error Errno.EIO, taken) ∧
      FreeAccepted taken.mount lba.toNat n.toNat ∧
      (AllocCall.free lba n).perform .ok taken = (.ok none, freed) ∧
      (AllocCall.alloc n).perform .ok freed = (.ok (some lba.toNat), again) := by
  have bound := exact.capacity_lt
  obtain ⟨start, -, found⟩ := firstRun_before positive free inside
  obtain ⟨clear, within, -⟩ := firstRun_eq_some positive found
  obtain ⟨lba, rfl⟩ : ∃ lba : UInt64, lba.toNat = start :=
    ⟨UInt64.ofNat start, by rw [UInt64.toNat_ofNat', Nat.mod_eq_of_lt (by omega)]⟩
  have unwrapped : lba.toNat + n.toNat < 2 ^ 64 := by omega
  have first := exact.perform_alloc positive found
  have taken := exact.perform (show IoOutcome.ok.Atomic from trivial)
    (show (AllocCall.alloc n).Unwrapped from trivial)
  rw [first] at taken
  have accepted : FreeAccepted (volume.marked lba.toNat n.toNat).mount lba.toNat n.toNat := by
    refine ⟨positive.ne', ?_, fun index below => ?_⟩
    · rw [Nat.mod_eq_of_lt unwrapped, taken.records.deviceCapacityBlocks]
      exact within
    · rw [Nat.mod_eq_of_lt (by omega), Volume.marked_bit, decide_eq_true (by omega), Bool.true_or]
  have second := taken.perform_free accepted unwrapped
  have freed := taken.perform (show IoOutcome.ok.Atomic from trivial)
    (show (AllocCall.free lba n).Unwrapped from unwrapped)
  rw [second] at freed
  have third := freed.perform_alloc positive (by
    rwa [funext fun index => Volume.unmarked_marked_bit clear index])
  exact ⟨lba, _, _, _, unwrapped, first, taken.perform_free_fails accepted unwrapped, accepted,
    second, third⟩

end Volume.Exact

theorem lbaIsMetadata_data {layout : NebulaLayout} {lba : Nat} (low : layout.dataStartLba ≤ lba)
    (high : lba < layout.allocRootsTailLba) : lbaIsMetadata layout lba = false := by
  rw [lbaIsMetadata]
  simp only [Bool.or_eq_false_iff, decide_eq_false_iff_not]
  omega

/-- A device of zeros, formatted and mounted. -/
theorem plainDisk_mounted {capacityBlocks : Nat} (large : 65536 ≤ capacityBlocks)
    (bound : capacityBlocks < 2 ^ 52) (small : capacityBlocks ≤ (2 ^ 32 - 1) * bitmapBitsPerPage) :
    ∃ layout mount,
    nebulaLayoutComputeEx capacityBlocks plainOptions.inodeSize = .ok layout ∧
    nebulaMountDo (fun _ => zeroBlock) (plainDisk capacityBlocks bound) = .ok mount ∧
    Volume.Exact plainOptions.uuid layout ⟨plainDisk capacityBlocks bound, mount⟩ ∧
    Formatted plainOptions layout (plainDisk capacityBlocks bound).content ∧
    layout.capacityBlocks = capacityBlocks ∧
    ∀ index < layout.capacityBlocks,
      bitGet mount.bitmap.l0Bits index = lbaIsMetadata layout index := by
  obtain ⟨layout, computed⟩ := @nebulaLayoutComputeEx_ok capacityBlocks plainOptions.inodeSize large
    bound (.inl rfl)
  obtain ⟨sound, total, -⟩ := nebulaLayoutComputeEx_sound bound computed
  have written : plainDisk capacityBlocks bound = ((zeroedDisk capacityBlocks bound).push
      (requestWrites (formatRequests plainOptions layout))).flush := by
    rw [plainDisk, @nebulaFormat_eq plainOptions (zeroedDisk capacityBlocks bound) layout computed]
  have blocks : (plainDisk capacityBlocks bound).capacityBlocks = layout.capacityBlocks := by
    rw [written]
    exact total.symm
  have formatted : Formatted plainOptions layout (plainDisk capacityBlocks bound).content := by
    rw [written, Disk.content_flush, Disk.content_push]
    exact formatted_of_requests sound
  have tight := sound.bitmap_tight
  have covers := sound.bitmap_covers
  have fits : layout.bitmapBlockCount < 2 ^ 32 := by
    simp only [bitmapBitsPerPage] at small
    omega
  obtain ⟨mount, mounts, mounted⟩ :=
    (Mountable.of_formatted sound blocks formatted).nebulaMountDo_ok (fun _ => zeroBlock) fits
  refine ⟨layout, mount, computed, mounts,
    Volume.exact_of_mount sound blocks fits formatted mounted, formatted, total,
    fun index below => ?_⟩
  rw [mounted.fresh_l0Bits formatted.bitmap (by omega), decide_eq_true below, Bool.true_and]

/-- A device of zeros of 256 MiB, formatted and mounted. -/
theorem plainDisk_volume : ∃ layout mount,
    nebulaFormat plainOptions (zeroedDisk 65536 (by decide)) =
      (.ok (), plainDisk 65536 (by decide)) ∧
    nebulaMountDo (fun _ => zeroBlock) (plainDisk 65536 (by decide)) = .ok mount ∧
    Volume.Exact plainOptions.uuid layout ⟨plainDisk 65536 (by decide), mount⟩ ∧
    layout.capacityBlocks = 65536 ∧
    ∀ index < layout.bitmapBlockCount * 32768, bitGet mount.bitmap.l0Bits index =
      (decide (index < layout.capacityBlocks) && lbaIsMetadata layout index) := by
  have done := nebulaFormat_zeroedDisk le_rfl (show 65536 < 2 ^ 52 by decide)
  obtain ⟨layout, sound, capacity, blocks, -, formatted, -⟩ := nebulaFormat_spec done
  have total : layout.capacityBlocks = 65536 := capacity
  have tight := sound.bitmap_tight
  have fits : layout.bitmapBlockCount < 2 ^ 32 := by omega
  obtain ⟨mount, mounts, mounted⟩ :=
    (Mountable.of_formatted sound (blocks.trans capacity.symm) formatted).nebulaMountDo_ok
      (fun _ => zeroBlock) fits
  exact ⟨layout, mount, done, mounts,
    Volume.exact_of_mount sound (blocks.trans capacity.symm) fits formatted mounted, total,
    fun index inside => mounted.fresh_l0Bits formatted.bitmap inside⟩

/-- Its data region begins with free blocks. -/
theorem plainDisk_data_free : ∃ layout mount,
    nebulaFormat plainOptions (zeroedDisk 65536 (by decide)) =
      (.ok (), plainDisk 65536 (by decide)) ∧
    nebulaMountDo (fun _ => zeroBlock) (plainDisk 65536 (by decide)) = .ok mount ∧
    Volume.Exact plainOptions.uuid layout ⟨plainDisk 65536 (by decide), mount⟩ ∧
    FreeRun (bitGet mount.bitmap.l0Bits) 5 layout.dataStartLba ∧
    layout.dataStartLba + 5 ≤ layout.capacityBlocks := by
  obtain ⟨layout, mount, done, mounts, exact, total, bits⟩ := plainDisk_volume
  have room := exact.sound.data_room
  have tail := exact.sound.allocRootsTail_eq
  have covers := exact.sound.bitmap_covers
  refine ⟨layout, mount, done, mounts, exact, fun offset below => ?_, by omega⟩
  rw [bits _ (by omega), lbaIsMetadata_data (by omega) (by omega), Bool.and_false]

theorem plainDisk_fresh : ∃ layout mount,
    Volume.Fresh plainOptions layout ⟨plainDisk 65536 (by decide), mount⟩ ∧
    layout.capacityBlocks = 65536 := by
  have done := nebulaFormat_zeroedDisk le_rfl (show 65536 < 2 ^ 52 by decide)
  obtain ⟨-, mount, -, mounts, -⟩ := plainDisk_volume
  obtain ⟨layout, computed⟩ := @nebulaLayoutComputeEx_ok 65536 plainOptions.inodeSize le_rfl
    (by decide) (.inl rfl)
  obtain ⟨-, total, -⟩ := nebulaLayoutComputeEx_sound (by decide) computed
  exact ⟨layout, mount, ⟨⟨_, computed, done⟩, ⟨_, mounts⟩⟩, total⟩

/-- In every run of allocations and frees on a formatted and mounted device, whose page writes
succeed or fail without effect: the summaries count the free blocks, the device holds the pages, a
failed call changes nothing, and loading the device again gives the same bitmap. -/
theorem summaries_exact {options : FormatOptions} {raw disk : Disk} {mount : NebulaMount}
    {heap : Nat → Block} {volume : Volume} (small : raw.capacityBlocks ≤ 2 ^ 32)
    (done : nebulaFormat options raw = (.ok (), disk))
    (mounts : nebulaMountDo heap disk = .ok mount)
    (run : Relation.ReflTransGen
      (AllocStep fun _ call outcome => call.Unwrapped ∧ outcome.Atomic) ⟨disk, mount⟩ volume) :
    (∀ group, (volume.mount.bitmap.l1FreeCounts group).toNat =
      freeInGroup volume.mount.bitmap.l0Bits volume.mount.sb.deviceCapacityBlocks.toNat group) ∧
    volume.mount.bitmap.l2TotalFree.toNat =
      ((List.range volume.mount.bitmap.numGroups).map fun group =>
      (volume.mount.bitmap.l1FreeCounts group).toNat).sum ∧
    (∀ page < volume.mount.bitmap.numPages,
      volume.disk.content (volume.mount.sb.bitmapLba.toNat + page) =
        volume.mount.bitmap.l0Bits page) ∧
    (∀ (call : AllocCall) outcome error, call.Unwrapped → outcome.Atomic →
      (call.perform outcome volume).1 = .error error →
      (call.perform outcome volume).2.mount.bitmap = volume.mount.bitmap) ∧
    ∀ heap', ∃ loaded,
      nebulaHbmLoad heap' volume.disk volume.mount.sb.bitmapLba.toNat
        volume.mount.sb.bitmapBlockCount.toNat volume.mount.sb.deviceCapacityBlocks.toNat =
          .ok loaded ∧
      (∀ page < volume.mount.bitmap.numPages,
        loaded.l0Bits page = volume.mount.bitmap.l0Bits page) ∧
      loaded.l1FreeCounts = volume.mount.bitmap.l1FreeCounts ∧
      loaded.l2TotalFree = volume.mount.bitmap.l2TotalFree := by
  obtain ⟨layout, sound, capacity, blocks, -, formatted, -⟩ := nebulaFormat_spec done
  have tight := sound.bitmap_tight
  have mountable := Mountable.of_formatted sound (blocks.trans capacity.symm) formatted
  have fits : layout.bitmapBlockCount < 2 ^ 32 := by omega
  obtain ⟨first, again, mounted⟩ := mountable.nebulaMountDo_ok heap fits
  rw [mounts, Except.ok.injEq] at again
  subst again
  have exact :=
    (Volume.exact_of_mount sound (blocks.trans capacity.symm) fits formatted mounted).reaches run
  have records := exact.records
  rw [records.deviceCapacityBlocks, records.bitmapLba, records.bitmapBlockCount]
  refine ⟨exact.bitmap.group_count sound, (exact.bitmap.sum_groups sound exact.capacity_lt).symm,
    ?_, ?_, exact.bitmap.reload sound exact.capacity fits⟩
  · rw [exact.bitmap.numPages]
    exact exact.bitmap.mirror
  · intro call outcome error unwrapped atomic failed
    rw [AllocCall.perform_error atomic unwrapped failed]

/-- A run on a formatted device: three blocks are taken, a free of them fails and is made again. -/
theorem summaries_exact_plainDisk : ∃ mount lba taken freed,
    nebulaMountDo (fun _ => zeroBlock) (plainDisk 65536 (by decide)) = .ok mount ∧
    (AllocCall.alloc 3).perform .ok ⟨plainDisk 65536 (by decide), mount⟩ =
      (.ok (some lba.toNat), taken) ∧
    (AllocCall.free lba 3).perform (.fail fun _ => false) taken = (.error Errno.EIO, taken) ∧
    (AllocCall.free lba 3).perform .ok taken = (.ok none, freed) ∧
    ∀ group, (freed.mount.bitmap.l1FreeCounts group).toNat =
      freeInGroup freed.mount.bitmap.l0Bits freed.mount.sb.deviceCapacityBlocks.toNat group := by
  obtain ⟨layout, mount, done, mounts, exact, free, inside⟩ := plainDisk_data_free
  obtain ⟨lba, taken, freed, -, bound, first, failed, -, second, -⟩ :=
    exact.alloc_free_alloc (n := 3) (by decide) (fun offset below => free offset
      (show offset < 5 from below.trans (by decide))) (show _ + 3 ≤ _ by omega)
  have run : Relation.ReflTransGen
      (AllocStep fun _ call outcome => call.Unwrapped ∧ outcome.Atomic) ⟨_, mount⟩ freed :=
    ((Relation.ReflTransGen.single ⟨.alloc 3, .ok, ⟨trivial, trivial⟩,
      congrArg Prod.snd first⟩).tail
      ⟨.free lba 3, .fail fun _ => false, ⟨bound, fun _ => rfl⟩, congrArg Prod.snd failed⟩).tail
      ⟨.free lba 3, .ok, ⟨bound, trivial⟩, congrArg Prod.snd second⟩
  exact ⟨mount, lba, taken, freed, mounts, first, failed, second,
    (summaries_exact (by simp [zeroedDisk]) done mounts run).1⟩

/-! ## The metadata bits -/

/-- The bits of the metadata blocks are set. -/
structure Volume.Guarded (uuid : Bytes 16) (layout : NebulaLayout) (volume : Volume) : Prop where
  sb : volume.mount.sb = formatSuperblock uuid layout
  taken : ∀ index < layout.capacityBlocks, lbaIsMetadata layout index = true →
    bitGet volume.mount.bitmap.l0Bits index = true

/-- A free that passes its checks names blocks of the data region. -/
def AllocCall.SparesMetadata (mount : NebulaMount) : AllocCall → Prop
  | .alloc _ => True
  | .free lba n => FreeAccepted mount lba.toNat n.toNat →
      mount.sb.dataStartLba.toNat ≤ lba.toNat ∧
        lba.toNat + n.toNat ≤ mount.sb.allocRootsTailLba.toNat

namespace Volume.Guarded

variable {uuid : Bytes 16} {layout : NebulaLayout} {volume : Volume}

/-- Calls that free no metadata keep the metadata bits set. -/
theorem perform (guarded : volume.Guarded uuid layout)
    (records : volume.mount.sb.Records uuid layout) {call : AllocCall} (outcome : IoOutcome)
    (spares : call.SparesMetadata volume.mount) :
    (call.perform outcome volume).2.Guarded uuid layout := by
  cases call with
  | alloc n =>
      have result := nebulaBlockAlloc_result outcome volume.disk volume.mount n.toNat
      simp only [AllocCall.perform]
      generalize nebulaBlockAlloc outcome volume.disk volume.mount n.toNat = done at result
      cases result with
      | ok start positive free inside least room =>
          refine ⟨guarded.sb, fun index below metadata => ?_⟩
          simp only [NebulaMount.withBitmap_bitmap, markRun_l0Bits]
          rw [bitGet_setRange, guarded.taken index below metadata, Bool.or_true]
      | error reason start part sub inside => exact ⟨guarded.sb, guarded.taken⟩
  | free lba n =>
      simp only [AllocCall.perform]
      by_cases accepted : FreeAccepted volume.mount lba.toNat n.toNat
      · obtain ⟨low, high⟩ := spares accepted
        have unwrapped : lba.toNat + n.toNat < 2 ^ 64 :=
          high.trans_lt volume.mount.sb.allocRootsTailLba.toNat_lt
        rw [records.dataStartLba] at low
        rw [records.allocRootsTailLba] at high
        have result := nebulaBlockFree_result outcome volume.disk accepted unwrapped
        generalize nebulaBlockFree outcome volume.disk volume.mount lba.toNat n.toNat =
          done at result
        cases result with
        | ok =>
            refine ⟨guarded.sb, fun index below metadata => ?_⟩
            have outside : ¬ (lba.toNat ≤ index ∧ index < lba.toNat + n.toNat) := by
              simp only [lbaIsMetadata, Bool.or_eq_true, decide_eq_true_eq] at metadata
              omega
            simp only [NebulaMount.withBitmap_bitmap, unmarkRun_l0Bits]
            rw [bitGet_clrRange, guarded.taken index below metadata, decide_eq_false outside,
              Bool.not_false, Bool.and_true]
        | error reason part sub => exact ⟨guarded.sb, guarded.taken⟩
      · obtain ⟨reason, refused⟩ := @nebulaBlockFree_refused outcome volume.disk _ _ _ accepted
        rw [refused]
        exact guarded

theorem reaches (guarded : volume.Guarded uuid layout) (sound : layout.Sound)
    (bound : layout.capacityBlocks < 2 ^ 52) {reached : Volume}
    (run : Relation.ReflTransGen (AllocStep fun before call _ => call.SparesMetadata before.mount)
      volume reached) : reached.Guarded uuid layout := by
  induction run with
  | refl => exact guarded
  | tail _ step ih =>
      obtain ⟨call, outcome, spares, rfl⟩ := step
      have records := formatSuperblock_records sound bound uuid
      rw [← ih.sb] at records
      exact ih.perform records outcome spares

/-- With the metadata bits set, an allocation lies in the data region. -/
theorem alloc_inside (guarded : volume.Guarded uuid layout)
    (records : volume.mount.sb.Records uuid layout) {outcome : IoOutcome} {n start : Nat}
    (allocated : (nebulaBlockAlloc outcome volume.disk volume.mount n).1 = .ok start) :
    layout.dataStartLba ≤ start ∧ start + n ≤ layout.allocRootsTailLba := by
  have result := nebulaBlockAlloc_result outcome volume.disk volume.mount n
  generalize nebulaBlockAlloc outcome volume.disk volume.mount n = done at result allocated
  cases result with
  | error reason start part sub inside => simp at allocated
  | ok first positive free inside least room =>
      rw [Except.ok.injEq] at allocated
      subst allocated
      have within : first + n ≤ layout.capacityBlocks := by
        rw [searchedBits, records.deviceCapacityBlocks] at inside
        exact inside.trans (min_le_right _ _)
      have data : ∀ offset < n, lbaIsMetadata layout (first + offset) = false := by
        intro offset below
        by_contra metadata
        have taken := guarded.taken (first + offset) (by omega) (by simpa using metadata)
        rw [free offset below] at taken
        contradiction
      have low := data 0 positive
      have high := data (n - 1) (by omega)
      simp only [lbaIsMetadata, Bool.or_eq_false_iff, decide_eq_false_iff_not] at low high
      omega

end Volume.Guarded

/-- In every run in which each accepted free names blocks of the data region, an allocation lies in
the data region. -/
theorem alloc_spares_metadata {options : FormatOptions} {raw disk : Disk} {mount : NebulaMount}
    {heap : Nat → Block} {volume : Volume} (fits : raw.capacityBlocks ≤ 32768 * (2 ^ 32 - 1))
    (done : nebulaFormat options raw = (.ok (), disk))
    (mounts : nebulaMountDo heap disk = .ok mount)
    (run : Relation.ReflTransGen (AllocStep fun before call _ => call.SparesMetadata before.mount)
      ⟨disk, mount⟩ volume) (n : UInt32) (outcome : IoOutcome) (start : Nat)
    (allocated : ((AllocCall.alloc n).perform outcome volume).1 = .ok (some start)) :
    volume.mount.sb.dataStartLba.toNat ≤ start ∧
      start + n.toNat ≤ volume.mount.sb.allocRootsTailLba.toNat := by
  obtain ⟨layout, sound, capacity, blocks, -, formatted, -⟩ := nebulaFormat_spec done
  have tight := sound.bitmap_tight
  have bound : layout.capacityBlocks < 2 ^ 52 := capacity ▸ raw.capacity_lt
  have covers := sound.bitmap_covers
  have mountable := Mountable.of_formatted sound (blocks.trans capacity.symm) formatted
  obtain ⟨first, again, mounted⟩ := mountable.nebulaMountDo_ok heap (by omega)
  rw [mounts, Except.ok.injEq] at again
  subst again
  have fresh : Volume.Guarded options.uuid layout ⟨disk, mount⟩ := by
    refine ⟨mounted.sb, fun index below metadata => ?_⟩
    rw [mounted.fresh_l0Bits formatted.bitmap (by omega), decide_eq_true below, metadata,
      Bool.and_true]
  have guarded := fresh.reaches sound bound run
  have records := formatSuperblock_records sound bound options.uuid
  rw [← guarded.sb] at records
  rw [records.dataStartLba, records.allocRootsTailLba]
  apply guarded.alloc_inside records
  simp only [AllocCall.perform] at allocated
  cases result : (nebulaBlockAlloc outcome volume.disk volume.mount n.toNat).1 with
  | ok first =>
      rw [show first = start by simpa [result, Except.map] using allocated]
  | error reason => simp [result, Except.map] at allocated

/-- A run on a formatted device: five blocks are taken, freed and taken again. -/
theorem alloc_spares_metadata_plainDisk : ∃ mount lba taken freed,
    nebulaMountDo (fun _ => zeroBlock) (plainDisk 65536 (by decide)) = .ok mount ∧
    (AllocCall.alloc 5).perform .ok ⟨plainDisk 65536 (by decide), mount⟩ =
      (.ok (some lba.toNat), taken) ∧
    FreeAccepted taken.mount lba.toNat 5 ∧
    (AllocCall.free lba 5).perform .ok taken = (.ok none, freed) ∧
    ((AllocCall.alloc 5).perform .ok freed).1 = .ok (some lba.toNat) ∧
    freed.mount.sb.dataStartLba.toNat ≤ lba.toNat ∧
    lba.toNat + 5 ≤ freed.mount.sb.allocRootsTailLba.toNat := by
  obtain ⟨layout, mount, done, mounts, exact, free, inside⟩ := plainDisk_data_free
  obtain ⟨lba, taken, freed, again, -, first, -, accepted, second, third⟩ :=
    exact.alloc_free_alloc (n := 5) (by decide) free inside
  have small : (zeroedDisk 65536 (by decide)).capacityBlocks ≤ 32768 * (2 ^ 32 - 1) := by
    simp [zeroedDisk]
  obtain ⟨low, high⟩ :=
    alloc_spares_metadata small done mounts .refl 5 .ok _ (congrArg Prod.fst first)
  have kept := exact.perform (show IoOutcome.ok.Atomic from trivial)
    (show (AllocCall.alloc 5).Unwrapped from trivial)
  rw [first] at kept
  have same : taken.mount.sb = mount.sb := kept.sb.trans exact.sb.symm
  have spares : (AllocCall.free lba 5).SparesMetadata taken.mount := fun _ =>
    ⟨same ▸ low, same ▸ high⟩
  have run : Relation.ReflTransGen (AllocStep fun before call _ => call.SparesMetadata before.mount)
      ⟨_, mount⟩ freed :=
    (Relation.ReflTransGen.single ⟨.alloc 5, .ok, trivial, congrArg Prod.snd first⟩).tail
      ⟨.free lba 5, .ok, spares, congrArg Prod.snd second⟩
  have third := congrArg Prod.fst third
  exact ⟨mount, lba, taken, freed, mounts, first, accepted, second, third,
    alloc_spares_metadata small done mounts run 5 .ok _ third⟩

/-- A free of block 0 is accepted, and the next allocation hands that block out. -/
theorem alloc_hands_out_mbr : ¬ ∀ (options : FormatOptions) (raw disk : Disk) (mount : NebulaMount)
    (heap : Nat → Block) (volume : Volume) (n : UInt32) (outcome : IoOutcome) (start : Nat),
    nebulaFormat options raw = (.ok (), disk) → nebulaMountDo heap disk = .ok mount →
    Relation.ReflTransGen (AllocStep fun _ _ _ => True) ⟨disk, mount⟩ volume →
    ((AllocCall.alloc n).perform outcome volume).1 = .ok (some start) →
    volume.mount.sb.dataStartLba.toNat ≤ start ∧
      start + n.toNat ≤ volume.mount.sb.allocRootsTailLba.toNat := by
  intro claim
  obtain ⟨layout, mount, done, mounts, exact, total, bits⟩ := plainDisk_volume
  have sound := exact.sound
  have data := sound.dataStart_eq
  have dir := sound.dir_eq
  have inode := sound.inode_eq
  have stream := sound.streamMap_eq
  have bitmap := sound.bitmap_eq
  have covers := sound.bitmap_covers
  have set : bitGet mount.bitmap.l0Bits 0 = true := by
    rw [bits 0 (by omega), lbaIsMetadata]
    simp only [Bool.and_eq_true, Bool.or_eq_true, decide_eq_true_eq]
    omega
  have accepted : FreeAccepted mount 0 1 := by
    refine ⟨by decide, Nat.le_of_lt ?_, fun index below => ?_⟩
    · rw [exact.records.deviceCapacityBlocks]
      omega
    · rw [show index = 0 by omega]
      exact set
  have freed := exact.free_ok accepted (by decide)
  have later := exact.free (show IoOutcome.ok.Atomic from trivial) (show 0 + 1 < 2 ^ 64 by decide)
  rw [freed] at later
  have clear : FreeRun (bitGet (clrRange mount.bitmap.l0Bits 0 1)) 1 0 := by
    intro offset below
    rw [bitGet_clrRange, decide_eq_true (by omega), Bool.not_true, Bool.false_and]
  have first := @firstRun_eq_of_least (bitGet (clrRange mount.bitmap.l0Bits 0 1)) 1
    layout.capacityBlocks 0 (by decide) clear (by omega) (by omega)
  have found := @Volume.Exact.alloc_ok _ _ _ later 0 1 (by decide) (by simpa using first)
  have inside := claim plainOptions _ _ mount (fun _ => zeroBlock) _ 1 .ok 0 done mounts
    (.single ⟨.free 0 1, .ok, trivial, rfl⟩) (by
      simp only [AllocCall.perform, show (0 : UInt64).toNat = 0 from rfl,
        show (1 : UInt32).toNat = 1 from rfl, freed, found, Except.map])
  simp only [AllocCall.perform, show (0 : UInt64).toNat = 0 from rfl,
    show (1 : UInt32).toNat = 1 from rfl, freed] at inside
  rw [later.records.dataStartLba] at inside
  omega

end MiniFs
