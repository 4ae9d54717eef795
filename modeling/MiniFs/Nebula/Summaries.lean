import MiniFs.Nebula.BlockAlloc
import MiniFs.Nebula.FreshMount

/-!
# Exact summaries

The loader computes the group and device summaries from the pages; the allocator adjusts them page
by page.  Both count the clear bits that stand for device blocks.
-/

namespace MiniFs

/-- The bit of a device block, and clear. -/
def FreeBit (bits : Nat → Block) (totalBlocks index : Nat) : Prop :=
  bitGet bits index = false ∧ index < totalBlocks

instance (bits : Nat → Block) (totalBlocks : Nat) : DecidablePred (FreeBit bits totalBlocks) :=
  fun _ => inferInstanceAs (Decidable (_ ∧ _))

/-- Bits of one group of pages. -/
@[irreducible] def groupBits : Nat := hbmPagesPerGroup * bitmapBitsPerPage

theorem groupBits_eq : groupBits = 64 * 32768 := by rw [groupBits]

/-- Free blocks of a group. -/
def freeInGroup (bits : Nat → Block) (totalBlocks group : Nat) : Nat :=
  Nat.count (fun index => FreeBit bits totalBlocks (group * groupBits + index)) groupBits

/-- No bit past the device is set. -/
def ClearPast (bits : Nat → Block) (totalBlocks numPages : Nat) : Prop :=
  ∀ index, totalBlocks ≤ index → index < numPages * 32768 → bitGet bits index = false

section Loader

variable {bits : Nat → Block} {totalBlocks numPages : Nat}

theorem freeInPage_eq_free {page : Nat} (past : ClearPast bits totalBlocks (page + 1)) :
    freeInPage totalBlocks page (bits page) =
      Nat.count (fun index => FreeBit bits totalBlocks (page * 32768 + index)) 32768 := by
  have room := pageBlocks_add_min totalBlocks page
  rw [freeInPage_eq_count past]
  have whole : Nat.count (fun index => FreeBit bits totalBlocks (page * 32768 + index)) 32768 =
      Nat.count (fun index => FreeBit bits totalBlocks (page * 32768 + index))
        (pageBlocks totalBlocks page) := by
    apply Nat.count_eq_of_not (by omega)
    rintro index low high ⟨-, inside⟩
    omega
  rw [whole]
  apply Nat.count_congr
  intro index inside
  rw [show min (page * 32768) totalBlocks = page * 32768 by omega, FreeBit]
  exact ⟨fun clear => ⟨clear, by omega⟩, fun free => free.1⟩

/-- The group summary is the sum over the pages of the group. -/
theorem hbmSummaries_group (bits : Nat → Block) (totalBlocks numPages group : Nat) :
    (hbmSummaries bits totalBlocks numPages).1 group =
      UInt64.ofNat ((((List.range numPages).filter fun page => page / hbmPagesPerGroup = group).map
        fun page => freeInPage totalBlocks page (bits page)).sum) := by
  induction numPages with
  | zero => simp [hbmSummaries]
  | succ n ih =>
      have step : (hbmSummaries bits totalBlocks (n + 1)).1 =
          Function.update (hbmSummaries bits totalBlocks n).1 (n / hbmPagesPerGroup)
            ((hbmSummaries bits totalBlocks n).1 (n / hbmPagesPerGroup) +
              UInt64.ofNat (freeInPage totalBlocks n (bits n))) := by
        simp [hbmSummaries, List.range_succ]
      rw [step, List.range_succ, List.filter_append, List.map_append, List.sum_append,
        UInt64.ofNat_add, ← ih]
      by_cases here : n / hbmPagesPerGroup = group
      · simp [here]
      · simp [here, Function.update_of_ne (Ne.symm here)]

/-- The device summary is the sum over all pages. -/
theorem hbmSummaries_device (bits : Nat → Block) (totalBlocks numPages : Nat) :
    (hbmSummaries bits totalBlocks numPages).2 =
      UInt64.ofNat (((List.range numPages).map
        fun page => freeInPage totalBlocks page (bits page)).sum) := by
  induction numPages with
  | zero => simp [hbmSummaries]
  | succ n ih =>
      have step : (hbmSummaries bits totalBlocks (n + 1)).2 =
          (hbmSummaries bits totalBlocks n).2 +
            UInt64.ofNat (freeInPage totalBlocks n (bits n)) := by
        simp [hbmSummaries, List.range_succ]
      rw [step, ih, List.range_succ, List.map_append, List.sum_append, UInt64.ofNat_add]
      simp

/-- Bits of the group below the end of a page: the page adds its own bits if it is in the group. -/
theorem group_part_succ (n group : Nat) :
    (n / hbmPagesPerGroup = group →
      group * groupBits + (n * 32768 - group * groupBits) = n * 32768 ∧
      min (n * 32768 - group * groupBits) groupBits = n * 32768 - group * groupBits ∧
      min ((n + 1) * 32768 - group * groupBits) groupBits =
        n * 32768 - group * groupBits + 32768) ∧
    (n / hbmPagesPerGroup ≠ group →
      min ((n + 1) * 32768 - group * groupBits) groupBits =
        min (n * 32768 - group * groupBits) groupBits) := by
  rw [groupBits_eq]
  simp only [hbmPagesPerGroup]
  constructor
  · intro here
    refine ⟨?_, ?_, ?_⟩ <;> omega
  · intro elsewhere
    omega

/-- The pages of a group hold its free blocks. -/
theorem sum_freeInPage_group (past : ClearPast bits totalBlocks numPages)
    (covers : totalBlocks ≤ numPages * 32768) (group : Nat) :
    (((List.range numPages).filter fun page => page / hbmPagesPerGroup = group).map
      fun page => freeInPage totalBlocks page (bits page)).sum =
      freeInGroup bits totalBlocks group := by
  have upTo : ∀ n ≤ numPages,
      (((List.range n).filter fun page => page / hbmPagesPerGroup = group).map
        fun page => freeInPage totalBlocks page (bits page)).sum =
      Nat.count (fun index => FreeBit bits totalBlocks (group * groupBits + index))
        (min (n * 32768 - group * groupBits) groupBits) := by
    intro n
    induction n with
    | zero => simp
    | succ n ih =>
        intro inside
        have earlier : ClearPast bits totalBlocks (n + 1) := fun index beyond below =>
          past index beyond (below.trans_le (Nat.mul_le_mul_right _ inside))
        rw [List.range_succ, List.filter_append, List.map_append, List.sum_append, ih (by omega)]
        by_cases here : n / hbmPagesPerGroup = group
        · obtain ⟨start, before, after⟩ := (group_part_succ n group).1 here
          have page : Nat.count (fun index => FreeBit bits totalBlocks
              (group * groupBits + (n * 32768 - group * groupBits + index))) 32768 =
              freeInPage totalBlocks n (bits n) := by
            rw [freeInPage_eq_free earlier]
            apply Nat.count_congr
            intro index _
            rw [← Nat.add_assoc, start]
          rw [before, after, Nat.count_add, page, List.filter_cons_of_pos (by simpa using here),
            List.filter_nil, List.map_singleton, List.sum_singleton]
        · rw [(group_part_succ n group).2 here, List.filter_cons_of_neg (by simpa using here),
            List.filter_nil, List.map_nil, List.sum_nil, Nat.add_zero]
  rw [upTo numPages le_rfl, freeInGroup]
  symm
  apply Nat.count_eq_of_not (min_le_right _ _)
  rintro index low high ⟨-, inside⟩
  omega

/-- Together the groups hold the free blocks of the device. -/
theorem sum_freeInGroup (bits : Nat → Block) {totalBlocks groups : Nat}
    (covers : totalBlocks ≤ groups * groupBits) :
    ((List.range groups).map (freeInGroup bits totalBlocks)).sum = freeBelow bits totalBlocks := by
  have upTo : ∀ n, ((List.range n).map (freeInGroup bits totalBlocks)).sum =
      Nat.count (FreeBit bits totalBlocks) (n * groupBits) := by
    intro n
    induction n with
    | zero => simp
    | succ n ih =>
        rw [List.range_succ, List.map_append, List.sum_append, ih, Nat.succ_mul, Nat.count_add,
          List.map_singleton, List.sum_singleton, freeInGroup]
  rw [upTo, freeBelow, Nat.count_eq_of_not covers]
  · apply Nat.count_congr
    intro index inside
    exact ⟨fun free => free.1, fun clear => ⟨clear, inside⟩⟩
  · rintro index low high ⟨-, inside⟩
    omega

theorem freeInGroup_le (bits : Nat → Block) (totalBlocks group : Nat) :
    freeInGroup bits totalBlocks group ≤ groupBits := Nat.count_le _

theorem freeBelow_le (bits : Nat → Block) (bound : Nat) : freeBelow bits bound ≤ bound :=
  Nat.count_le _

end Loader

section Mark

variable {bits : Nat → Block} {totalBlocks numPages start n : Nat}

/-- A run outside the device is not involved. -/
theorem ClearPast.setRange (past : ClearPast bits totalBlocks numPages)
    (inside : start + n ≤ totalBlocks) :
    ClearPast (setRange bits start n) totalBlocks numPages := by
  intro index beyond below
  rw [bitGet_setRange, past index beyond below]
  simp
  omega

theorem ClearPast.clrRange (past : ClearPast bits totalBlocks numPages) :
    ClearPast (clrRange bits start n) totalBlocks numPages := by
  intro index beyond below
  rw [bitGet_clrRange, past index beyond below]
  simp

theorem freeBit_setRange {index : Nat} :
    FreeBit (setRange bits start n) totalBlocks index ↔
      FreeBit bits totalBlocks index ∧ ¬ (start ≤ index ∧ index < start + n) := by
  rw [FreeBit, FreeBit, bitGet_setRange, Bool.or_eq_false_iff, decide_eq_false_iff_not]
  exact ⟨fun free => ⟨⟨free.1.2, free.2⟩, free.1.1⟩, fun free => ⟨⟨free.2, free.1.1⟩, free.1.2⟩⟩

/-- Marking a free run takes its part of every page off the free count of the page. -/
theorem freeInPage_setRange {page : Nat} (past : ClearPast bits totalBlocks (page + 1))
    (positive : 0 < n) (inside : start + n ≤ totalBlocks) (free : FreeRun (bitGet bits) n start) :
    freeInPage totalBlocks page (setRange bits start n page) +
        takenOnPage start (start + n - 1) page =
      freeInPage totalBlocks page (bits page) := by
  have last : start + n - 1 + 1 = start + n := by omega
  rw [freeInPage_eq_free past, freeInPage_eq_free (past.setRange inside), takenOnPage, last]
  simp only [bitmapBitsPerPage]
  obtain ⟨low, lowEq⟩ : ∃ low, low = max start (page * 32768) := ⟨_, rfl⟩
  obtain ⟨high, highEq⟩ : ∃ high, high = min (start + n) (page * 32768 + 32768) := ⟨_, rfl⟩
  rw [← lowEq, ← highEq]
  by_cases touched : low < high
  · apply Nat.count_remove_interval (show low - page * 32768 + (high - low) ≤ 32768 by omega)
    · intro k above below
      have clear := free (page * 32768 + k - start) (by omega)
      rw [show start + (page * 32768 + k - start) = page * 32768 + k by omega] at clear
      exact ⟨clear, by omega⟩
    · intro k below
      rw [freeBit_setRange]
      constructor
      · rintro ⟨clear, outside⟩
        exact ⟨clear, by omega⟩
      · rintro ⟨clear, outside⟩
        exact ⟨clear, by omega⟩
  · rw [Nat.sub_eq_zero_of_le (by omega), Nat.add_zero]
    apply Nat.count_congr
    intro k below
    rw [freeBit_setRange]
    exact ⟨fun free => free.1, fun clear => ⟨clear, by omega⟩⟩

/-- Off its pages a run takes nothing. -/
theorem takenOnPage_eq_zero {page : Nat}
    (off : page < start / 32768 ∨ (start + n - 1) / 32768 < page) :
    takenOnPage start (start + n - 1) page = 0 := by
  simp only [takenOnPage, bitmapBitsPerPage]
  omega

/-- The pages of a run hold all that it takes from the chosen ones. -/
theorem sum_takenOnPage (positive : 0 < n) (inside : start + n ≤ numPages * 32768)
    (chosen : Nat → Bool) :
    (((List.range numPages).filter chosen).map (takenOnPage start (start + n - 1))).sum =
      ((((List.range ((start + n - 1) / 32768 - start / 32768 + 1)).map
        (start / 32768 + ·)).filter chosen).map (takenOnPage start (start + n - 1))).sum := by
  have nothing : ∀ pages : List Nat, (∀ page ∈ pages, page < start / 32768 ∨
      (start + n - 1) / 32768 < page) →
      ((pages.filter chosen).map (takenOnPage start (start + n - 1))).sum = 0 := by
    intro pages off
    apply List.sum_eq_zero
    intro taken member
    obtain ⟨page, listed, rfl⟩ := List.mem_map.mp member
    exact takenOnPage_eq_zero (off page (List.mem_of_mem_filter listed))
  obtain ⟨rest, split⟩ : ∃ rest, numPages =
      start / 32768 + ((start + n - 1) / 32768 - start / 32768 + 1) + rest :=
    Nat.exists_eq_add_of_le (by omega)
  rw [split, List.range_add, List.range_add, List.filter_append, List.filter_append,
    List.map_append,
    List.map_append, List.sum_append, List.sum_append, nothing (List.range (start / 32768)),
    nothing ((List.range rest).map _)]
  · omega
  · intro page member
    obtain ⟨index, -, rfl⟩ := List.mem_map.mp member
    omega
  · intro page member
    have := List.mem_range.mp member
    omega

/-- The summaries of marked pages, from those of the pages before. -/
theorem sum_freeInPage_setRange (past : ClearPast bits totalBlocks numPages) (positive : 0 < n)
    (covers : totalBlocks ≤ numPages * 32768) (inside : start + n ≤ totalBlocks)
    (free : FreeRun (bitGet bits) n start) (chosen : Nat → Bool) :
    (((List.range numPages).filter chosen).map
        fun page => freeInPage totalBlocks page (setRange bits start n page)).sum +
      ((((List.range ((start + n - 1) / 32768 - start / 32768 + 1)).map
        (start / 32768 + ·)).filter chosen).map (takenOnPage start (start + n - 1))).sum =
      (((List.range numPages).filter chosen).map
        fun page => freeInPage totalBlocks page (bits page)).sum := by
  rw [← sum_takenOnPage positive (inside.trans covers), ← List.sum_map_add]
  congr 1
  apply List.map_congr_left
  intro page member
  have below := List.mem_range.mp (List.mem_of_mem_filter member)
  exact freeInPage_setRange (fun index beyond high =>
    past index beyond (high.trans_le (Nat.mul_le_mul_right _ below))) positive inside free

/-- The allocator's adjustment gives what the loader would compute for the marked pages. -/
theorem hbmSummaries_setRange (past : ClearPast bits totalBlocks numPages) (positive : 0 < n)
    (covers : totalBlocks ≤ numPages * 32768) (inside : start + n ≤ totalBlocks)
    (free : FreeRun (bitGet bits) n start) :
    (∀ group, (hbmSummaries (setRange bits start n) totalBlocks numPages).1 group +
        UInt64.ofNat (takenInGroup start (start + n - 1) group
          ((List.range ((start + n - 1) / 32768 - start / 32768 + 1)).map (start / 32768 + ·))) =
      (hbmSummaries bits totalBlocks numPages).1 group) ∧
    (hbmSummaries (setRange bits start n) totalBlocks numPages).2 + UInt64.ofNat n =
      (hbmSummaries bits totalBlocks numPages).2 := by
  constructor
  · intro group
    rw [hbmSummaries_group, hbmSummaries_group, takenInGroup, ← UInt64.ofNat_add,
      sum_freeInPage_setRange past positive covers inside free]
  · have total := sum_freeInPage_setRange past positive covers inside free fun _ => true
    have taken := @takenOnPage_run start n positive
    rw [List.filter_true, List.filter_true, List.map_map] at total
    rw [hbmSummaries_device, hbmSummaries_device, ← UInt64.ofNat_add, ← total]
    congr 2
    exact taken.symm

end Mark

/-- The loaded bitmap is exact: its summaries are those of its pages, and its pages those of the
device. -/
structure HierBitmap.Exact (bitmap : HierBitmap) (layout : NebulaLayout) (disk : Disk) : Prop where
  totalBlocks : bitmap.totalBlocks = layout.capacityBlocks
  numPages : bitmap.numPages = layout.bitmapBlockCount
  numGroups : bitmap.numGroups = (layout.bitmapBlockCount + 63) / 64
  past : ClearPast bitmap.l0Bits layout.capacityBlocks layout.bitmapBlockCount
  l1FreeCounts : ∀ group, bitmap.l1FreeCounts group =
    (hbmSummaries bitmap.l0Bits layout.capacityBlocks layout.bitmapBlockCount).1 group
  l2TotalFree : bitmap.l2TotalFree =
    (hbmSummaries bitmap.l0Bits layout.capacityBlocks layout.bitmapBlockCount).2
  mirror : ∀ page < layout.bitmapBlockCount,
    disk.content (layout.bitmapLba + page) = bitmap.l0Bits page

section Exact

variable {bitmap : HierBitmap} {layout : NebulaLayout} {disk : Disk}

/-- An exact bitmap counts the free blocks of every group. -/
theorem HierBitmap.Exact.group_count (exact : bitmap.Exact layout disk) (sound : layout.Sound)
    (group : Nat) :
    (bitmap.l1FreeCounts group).toNat =
      freeInGroup bitmap.l0Bits layout.capacityBlocks group := by
  have bound := freeInGroup_le bitmap.l0Bits layout.capacityBlocks group
  rw [groupBits_eq] at bound
  rw [exact.l1FreeCounts, hbmSummaries_group, sum_freeInPage_group exact.past sound.bitmap_covers,
    UInt64.toNat_ofNat', Nat.mod_eq_of_lt (by omega)]

/-- An exact bitmap counts the free blocks of the device. -/
theorem HierBitmap.Exact.device_count (exact : bitmap.Exact layout disk) (sound : layout.Sound)
    (bound : layout.capacityBlocks < 2 ^ 52) :
    bitmap.l2TotalFree.toNat = freeBelow bitmap.l0Bits layout.capacityBlocks := by
  have most := freeBelow_le bitmap.l0Bits layout.capacityBlocks
  rw [exact.l2TotalFree, hbmSummaries_total exact.past, min_eq_right sound.bitmap_covers,
    UInt64.toNat_ofNat', Nat.mod_eq_of_lt (by omega)]

/-- The groups add up to the device. -/
theorem HierBitmap.Exact.sum_groups (exact : bitmap.Exact layout disk) (sound : layout.Sound)
    (bound : layout.capacityBlocks < 2 ^ 52) :
    ((List.range bitmap.numGroups).map fun group => (bitmap.l1FreeCounts group).toNat).sum =
      bitmap.l2TotalFree.toNat := by
  have round : layout.bitmapBlockCount ≤ bitmap.numGroups * 64 := by
    rw [exact.numGroups]
    omega
  have wide : layout.capacityBlocks ≤ bitmap.numGroups * groupBits := by
    rw [groupBits_eq, ← Nat.mul_assoc]
    exact sound.bitmap_covers.trans (Nat.mul_le_mul_right _ round)
  rw [exact.device_count sound bound, ← sum_freeInGroup bitmap.l0Bits wide]
  congr 1
  apply List.map_congr_left
  intro group _
  exact exact.group_count sound group

theorem hbmSummaries_congr {bits bits' : Nat → Block} {totalBlocks numPages : Nat}
    (same : ∀ page < numPages, bits page = bits' page) :
    hbmSummaries bits totalBlocks numPages = hbmSummaries bits' totalBlocks numPages := by
  induction numPages with
  | zero => simp [hbmSummaries]
  | succ n ih =>
      have earlier := ih fun page inside => same page (by omega)
      simp only [hbmSummaries, List.range_succ, List.foldl_append, List.foldl_cons,
        List.foldl_nil] at earlier ⊢
      rw [earlier, same n (by omega)]

/-- Loading the device again gives the same bitmap. -/
theorem HierBitmap.Exact.reload (exact : bitmap.Exact layout disk) (sound : layout.Sound)
    (capacity : disk.capacityBlocks = layout.capacityBlocks)
    (fits : layout.bitmapBlockCount < 2 ^ 32) (heap : Nat → Block) :
    ∃ loaded, nebulaHbmLoad heap disk layout.bitmapLba layout.bitmapBlockCount
        layout.capacityBlocks = .ok loaded ∧
      (∀ page < bitmap.numPages, loaded.l0Bits page = bitmap.l0Bits page) ∧
      loaded.l1FreeCounts = bitmap.l1FreeCounts ∧ loaded.l2TotalFree = bitmap.l2TotalFree := by
  have covers := sound.bitmap_covers
  have least := sound.capacity_ge
  have start := sound.bitmap_eq
  have room := sound.data_room
  have data := sound.dataStart_eq
  have dir := sound.dir_eq
  have inode := sound.inode_eq
  have stream := sound.streamMap_eq
  have tail := sound.allocRootsTail_eq
  have read : nebulaIoRead .ok disk layout.bitmapLba layout.bitmapBlockCount =
      .ok ((List.range layout.bitmapBlockCount).map fun page =>
        disk.content (layout.bitmapLba + page)) := nebulaIoRead_fault_free (by omega)
  have pages : ∀ page < layout.bitmapBlockCount,
      ((List.range layout.bitmapBlockCount).map fun page =>
        disk.content (layout.bitmapLba + page)).getD page (heap page) = bitmap.l0Bits page := by
    intro page inside
    simp [List.getD_eq_getElem?_getD, inside, exact.mirror page inside]
  have summaries := @hbmSummaries_congr _ bitmap.l0Bits layout.capacityBlocks _ pages
  refine ⟨_, nebulaHbmLoad_ok (by omega) fits read, ?_, ?_, ?_⟩
  · rw [exact.numPages]
    exact pages
  · funext group
    rw [exact.l1FreeCounts]
    exact congrFun (congrArg Prod.fst summaries) group
  · rw [exact.l2TotalFree]
    exact congrArg Prod.snd summaries

/-- Marking a free run of the device, once its pages are written. -/
theorem HierBitmap.Exact.mark (exact : bitmap.Exact layout disk) (sound : layout.Sound)
    {start n : Nat} (positive : 0 < n) (inside : start + n ≤ layout.capacityBlocks)
    (free : FreeRun (bitGet bitmap.l0Bits) n start) {disk' : Disk}
    (mirror : ∀ page < layout.bitmapBlockCount,
      disk'.content (layout.bitmapLba + page) = setRange bitmap.l0Bits start n page) :
    (markRun bitmap start n).Exact layout disk' := by
  have summaries := hbmSummaries_setRange exact.past positive sound.bitmap_covers inside free
  have shape : markRun bitmap start n = { bitmap with
      l0Bits := setRange bitmap.l0Bits start n
      l1FreeCounts := (markRun bitmap start n).l1FreeCounts
      l2TotalFree := (markRun bitmap start n).l2TotalFree } := by
    rw [markRun, updateSummaries_eq]
  constructor
  · rw [shape]
    exact exact.totalBlocks
  · rw [shape]
    exact exact.numPages
  · rw [shape]
    exact exact.numGroups
  · rw [markRun_l0Bits]
    exact exact.past.setRange inside
  · intro group
    rw [markRun_l0Bits, markRun, updateSummaries_eq_foldl, foldl_l1FreeCounts_sub]
    simp only [exact.l1FreeCounts]
    rw [← summaries.1 group]
    exact UInt64.add_sub_cancel _ _
  · rw [markRun_l0Bits, markRun_l2TotalFree bitmap positive, exact.l2TotalFree, ← summaries.2]
    exact UInt64.add_sub_cancel _ _
  · intro page below
    rw [markRun_l0Bits]
    exact mirror page below

/-- Clearing a taken run of the device, once its pages are written. -/
theorem HierBitmap.Exact.unmark (exact : bitmap.Exact layout disk) (sound : layout.Sound)
    {start n : Nat} (positive : 0 < n) (inside : start + n ≤ layout.capacityBlocks)
    (taken : ∀ index < n, bitGet bitmap.l0Bits (start + index) = true) {disk' : Disk}
    (mirror : ∀ page < layout.bitmapBlockCount,
      disk'.content (layout.bitmapLba + page) = clrRange bitmap.l0Bits start n page) :
    (unmarkRun bitmap start n).Exact layout disk' := by
  have free : FreeRun (bitGet (clrRange bitmap.l0Bits start n)) n start := by
    intro index below
    rw [bitGet_clrRange]
    simp
    omega
  have summaries := @hbmSummaries_setRange (clrRange bitmap.l0Bits start n) layout.capacityBlocks
    layout.bitmapBlockCount start n exact.past.clrRange positive sound.bitmap_covers inside free
  rw [setRange_clrRange taken] at summaries
  have shape : unmarkRun bitmap start n = { bitmap with
      l0Bits := clrRange bitmap.l0Bits start n
      l1FreeCounts := (unmarkRun bitmap start n).l1FreeCounts
      l2TotalFree := (unmarkRun bitmap start n).l2TotalFree } := by
    rw [unmarkRun, updateSummaries_eq]
  constructor
  · rw [shape]
    exact exact.totalBlocks
  · rw [shape]
    exact exact.numPages
  · rw [shape]
    exact exact.numGroups
  · rw [unmarkRun_l0Bits]
    exact exact.past.clrRange
  · intro group
    rw [unmarkRun_l0Bits, unmarkRun, updateSummaries_eq_foldl, foldl_l1FreeCounts_add]
    simp only [exact.l1FreeCounts]
    exact summaries.1 group
  · rw [unmarkRun_l0Bits, unmarkRun_l2TotalFree bitmap positive, exact.l2TotalFree]
    exact summaries.2
  · intro page below
    rw [unmarkRun_l0Bits]
    exact mirror page below

end Exact

end MiniFs
