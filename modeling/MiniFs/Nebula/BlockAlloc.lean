import MiniFs.Lib.RunSearch
import MiniFs.Nebula.Mount

/-!
# The block allocator

First-fit allocation and deallocation of runs of blocks.  Each call updates the loaded bitmap and
its summaries, then writes the bitmap pages it touched; a failed page write rolls the bitmap back.
-/

namespace MiniFs

/-- `flush_dirty_pages`: the write request for the pages of the bits from `firstBit` to
`lastBit`. -/
def flushDirtyPages (outcome : IoOutcome) (disk : Disk) (mount : NebulaMount)
    (firstBit lastBit : Nat) : Except Errno Unit × Disk :=
  let firstPage := firstBit / bitmapBitsPerPage
  let lastPage := lastBit / bitmapBitsPerPage
  nebulaIoWrite outcome disk (mount.sb.bitmapLba.toNat + firstPage)
    ((List.range (lastPage - firstPage + 1)).map fun index =>
      mount.bitmap.l0Bits (firstPage + index))

/-- Bits of `[firstBit, lastBit]` that lie on a page. -/
def takenOnPage (firstBit lastBit page : Nat) : Nat :=
  min (lastBit + 1) (page * bitmapBitsPerPage + bitmapBitsPerPage) -
    max firstBit (page * bitmapBitsPerPage)

/-- The loop body of `update_summaries`: `change` is subtraction for an allocation and
addition for a free. -/
def updatePageSummaries (change : UInt64 → UInt64 → UInt64) (firstBit lastBit : Nat)
    (bitmap : HierBitmap) (page : Nat) : HierBitmap :=
  let taken := UInt64.ofNat (takenOnPage firstBit lastBit page)
  let group := page / hbmPagesPerGroup
  { bitmap with
    l1FreeCounts :=
      Function.update bitmap.l1FreeCounts group (change (bitmap.l1FreeCounts group) taken)
    l2TotalFree := change bitmap.l2TotalFree taken }

/-- `update_summaries`. -/
def updateSummaries (change : UInt64 → UInt64 → UInt64) (bitmap : HierBitmap)
    (firstBit lastBit : Nat) : HierBitmap :=
  let firstPage := firstBit / bitmapBitsPerPage
  let lastPage := lastBit / bitmapBitsPerPage
  (List.range (lastPage - firstPage + 1)).foldl
    (fun current index => updatePageSummaries change firstBit lastBit current (firstPage + index))
    bitmap

/-- Bits the allocator searches: those of the loaded pages that stand for device blocks. -/
def searchedBits (mount : NebulaMount) : Nat :=
  min (mount.bitmap.numPages * bitmapBitsPerPage) mount.sb.deviceCapacityBlocks.toNat

/-- The bitmap with the run `[start, start + n)` marked and the summaries adjusted. -/
def markRun (bitmap : HierBitmap) (start n : Nat) : HierBitmap :=
  updateSummaries (· - ·) { bitmap with l0Bits := setRange bitmap.l0Bits start n }
    start (start + n - 1)

/-- The bitmap with the run `[start, start + n)` cleared and the summaries adjusted. -/
def unmarkRun (bitmap : HierBitmap) (start n : Nat) : HierBitmap :=
  updateSummaries (· + ·) { bitmap with l0Bits := clrRange bitmap.l0Bits start n }
    start (start + n - 1)

/-- The `Found a fit` branch of `nebula_block_alloc`: mark the run, write its pages, and take the
mark back if that fails. -/
def claimRun (outcome : IoOutcome) (disk : Disk) (mount : NebulaMount) (start n : Nat) :
    Except Errno Nat × Disk × NebulaMount :=
  let marked := mount.withBitmap (markRun mount.bitmap start n)
  match flushDirtyPages outcome disk marked start (start + n - 1) with
  | (.ok (), disk) => (.ok start, disk, marked)
  | (.error error, disk) =>
      (.error error, disk, marked.withBitmap (unmarkRun marked.bitmap start n))

/-- `nebula_block_alloc`. -/
def nebulaBlockAlloc (outcome : IoOutcome) (disk : Disk) (mount : NebulaMount) (n : Nat) :
    Except Errno Nat × Disk × NebulaMount :=
  if n = 0 then (.error .EINVAL, disk, mount)
  else if mount.bitmap.l2TotalFree.toNat < n then (.error .ENOSPC, disk, mount)
  else
    match firstRun (bitGet mount.bitmap.l0Bits) n (searchedBits mount) with
    | none => (.error .ENOSPC, disk, mount)
    | some start => claimRun outcome disk mount start n

/-- `nebula_block_free`. -/
def nebulaBlockFree (outcome : IoOutcome) (disk : Disk) (mount : NebulaMount) (lba n : Nat) :
    Except Errno Unit × Disk × NebulaMount :=
  if n = 0 then (.error .EINVAL, disk, mount)
  else if mount.sb.deviceCapacityBlocks.toNat < (lba + n) % 2 ^ 64 then
    (.error .ERANGE, disk, mount)
  else if (List.range n).any fun index => !bitGet mount.bitmap.l0Bits ((lba + index) % 2 ^ 64) then
    (.error .EINVAL, disk, mount)
  else
    let cleared := mount.withBitmap (unmarkRun mount.bitmap lba n)
    match flushDirtyPages outcome disk cleared lba ((lba + n - 1) % 2 ^ 64) with
    | (.ok (), disk) => (.ok (), disk, cleared)
    | (.error error, disk) =>
        (.error error, disk, cleared.withBitmap (markRun cleared.bitmap lba n))

/-- The summaries are all that `update_summaries` changes. -/
theorem updateSummaries_eq (change : UInt64 → UInt64 → UInt64) (bitmap : HierBitmap)
    (firstBit lastBit : Nat) :
    updateSummaries change bitmap firstBit lastBit =
      { bitmap with
        l1FreeCounts := (updateSummaries change bitmap firstBit lastBit).l1FreeCounts
        l2TotalFree := (updateSummaries change bitmap firstBit lastBit).l2TotalFree } := by
  simp only [updateSummaries]
  generalize lastBit / bitmapBitsPerPage - firstBit / bitmapBitsPerPage + 1 = count
  induction count with
  | zero => rfl
  | succ count ih =>
      rw [List.range_succ, List.foldl_append]
      simp only [List.foldl_cons, List.foldl_nil]
      rw [ih]
      rfl

/-- Together the pages of a run hold all of its bits. -/
theorem takenOnPage_total {start n : Nat} (positive : 0 < n) (count : Nat) :
    ((List.range (count + 1)).map fun index =>
        takenOnPage start (start + n - 1) (start / bitmapBitsPerPage + index)).sum =
      min (start + n) ((start / bitmapBitsPerPage + count) * bitmapBitsPerPage +
        bitmapBitsPerPage) - start := by
  have last : start + n - 1 + 1 = start + n := by omega
  have page := Nat.div_mul_le_self start bitmapBitsPerPage
  have telescope : ∀ {low : Nat}, start ≤ low → ∀ size, min (start + n) low - start +
      (min (start + n) (low + size) - max start low + 0) =
        min (start + n) (low + size) - start := by
    omega
  induction count with
  | zero =>
      simp only [takenOnPage, last, zero_add, List.range_one, List.map_cons, List.map_nil,
        List.sum_cons, List.sum_nil, add_zero]
      rw [max_eq_left page]
  | succ count ih =>
      have next : (start / bitmapBitsPerPage + (count + 1)) * bitmapBitsPerPage =
          (start / bitmapBitsPerPage + count) * bitmapBitsPerPage + bitmapBitsPerPage := by
        rw [← add_assoc, Nat.succ_mul]
      have after : start ≤ (start / bitmapBitsPerPage + count) * bitmapBitsPerPage +
          bitmapBitsPerPage := by
        rw [← Nat.succ_mul]
        refine (Nat.lt_mul_of_div_lt ?_ (by decide)).le
        omega
      rw [List.range_succ, List.map_append, List.sum_append, ih]
      simp only [takenOnPage, last, List.map_cons, List.map_nil, List.sum_cons, List.sum_nil, next]
      exact telescope after _

theorem foldl_l2TotalFree_sub (firstBit lastBit : Nat) (bitmap : HierBitmap)
    (pages : List Nat) :
    (pages.foldl (updatePageSummaries (· - ·) firstBit lastBit) bitmap).l2TotalFree =
      bitmap.l2TotalFree - UInt64.ofNat (pages.map (takenOnPage firstBit lastBit)).sum := by
  induction pages generalizing bitmap with
  | nil => simp
  | cons page pages ih =>
      rw [List.foldl_cons, ih, List.map_cons, List.sum_cons, UInt64.ofNat_add]
      simp only [updatePageSummaries]
      grind

theorem foldl_l2TotalFree_add (firstBit lastBit : Nat) (bitmap : HierBitmap)
    (pages : List Nat) :
    (pages.foldl (updatePageSummaries (· + ·) firstBit lastBit) bitmap).l2TotalFree =
      bitmap.l2TotalFree + UInt64.ofNat (pages.map (takenOnPage firstBit lastBit)).sum := by
  induction pages generalizing bitmap with
  | nil => simp
  | cons page pages ih =>
      rw [List.foldl_cons, ih, List.map_cons, List.sum_cons, UInt64.ofNat_add]
      simp only [updatePageSummaries]
      rw [UInt64.add_assoc]

theorem takenOnPage_run {start n : Nat} (positive : 0 < n) :
    ((List.range ((start + n - 1) / bitmapBitsPerPage - start / bitmapBitsPerPage + 1)).map
      fun index => takenOnPage start (start + n - 1) (start / bitmapBitsPerPage + index)).sum =
      n := by
  have order : start / bitmapBitsPerPage ≤ (start + n - 1) / bitmapBitsPerPage :=
    Nat.div_le_div_right (by omega)
  have last := @Nat.lt_div_mul_add (start + n - 1) bitmapBitsPerPage (by decide)
  rw [takenOnPage_total positive, Nat.add_sub_cancel' order, min_eq_left (by omega)]
  omega

@[simp] theorem markRun_l0Bits (bitmap : HierBitmap) (start n : Nat) :
    (markRun bitmap start n).l0Bits = setRange bitmap.l0Bits start n := by
  rw [markRun, updateSummaries_eq]

@[simp] theorem unmarkRun_l0Bits (bitmap : HierBitmap) (start n : Nat) :
    (unmarkRun bitmap start n).l0Bits = clrRange bitmap.l0Bits start n := by
  rw [unmarkRun, updateSummaries_eq]

@[simp] theorem markRun_numPages (bitmap : HierBitmap) (start n : Nat) :
    (markRun bitmap start n).numPages = bitmap.numPages := by
  rw [markRun, updateSummaries_eq]

@[simp] theorem unmarkRun_numPages (bitmap : HierBitmap) (start n : Nat) :
    (unmarkRun bitmap start n).numPages = bitmap.numPages := by
  rw [unmarkRun, updateSummaries_eq]

/-- Marking a run takes its length off the free count of the device. -/
theorem markRun_l2TotalFree (bitmap : HierBitmap) {start n : Nat} (positive : 0 < n) :
    (markRun bitmap start n).l2TotalFree = bitmap.l2TotalFree - UInt64.ofNat n := by
  have total := foldl_l2TotalFree_sub start (start + n - 1)
    { bitmap with l0Bits := setRange bitmap.l0Bits start n }
    ((List.range ((start + n - 1) / bitmapBitsPerPage - start / bitmapBitsPerPage + 1)).map
      (start / bitmapBitsPerPage + ·))
  rw [List.foldl_map, List.map_map] at total
  simp only [markRun, updateSummaries]
  rw [total]
  congr 2
  exact takenOnPage_run positive

/-- Clearing a run gives its length back to the free count of the device. -/
theorem unmarkRun_l2TotalFree (bitmap : HierBitmap) {start n : Nat} (positive : 0 < n) :
    (unmarkRun bitmap start n).l2TotalFree = bitmap.l2TotalFree + UInt64.ofNat n := by
  have total := foldl_l2TotalFree_add start (start + n - 1)
    { bitmap with l0Bits := clrRange bitmap.l0Bits start n }
    ((List.range ((start + n - 1) / bitmapBitsPerPage - start / bitmapBitsPerPage + 1)).map
      (start / bitmapBitsPerPage + ·))
  rw [List.foldl_map, List.map_map] at total
  simp only [unmarkRun, updateSummaries]
  rw [total]
  congr 2
  exact takenOnPage_run positive

/-- Bits of a run on those of its pages that belong to a group. -/
def takenInGroup (firstBit lastBit group : Nat) (pages : List Nat) : Nat :=
  ((pages.filter fun page => page / hbmPagesPerGroup = group).map
    (takenOnPage firstBit lastBit)).sum

theorem foldl_l1FreeCounts_sub (firstBit lastBit group : Nat) (bitmap : HierBitmap)
    (pages : List Nat) :
    (pages.foldl (updatePageSummaries (· - ·) firstBit lastBit) bitmap).l1FreeCounts group =
      bitmap.l1FreeCounts group - UInt64.ofNat (takenInGroup firstBit lastBit group pages) := by
  induction pages generalizing bitmap with
  | nil => simp [takenInGroup]
  | cons page pages ih =>
      rw [List.foldl_cons, ih]
      simp only [updatePageSummaries, takenInGroup, List.filter_cons]
      by_cases here : page / hbmPagesPerGroup = group
      · simp only [here, Function.update_self, decide_true, if_true, List.map_cons, List.sum_cons,
          UInt64.ofNat_add]
        grind
      · simp [here, Function.update_of_ne (Ne.symm here)]

theorem foldl_l1FreeCounts_add (firstBit lastBit group : Nat) (bitmap : HierBitmap)
    (pages : List Nat) :
    (pages.foldl (updatePageSummaries (· + ·) firstBit lastBit) bitmap).l1FreeCounts group =
      bitmap.l1FreeCounts group + UInt64.ofNat (takenInGroup firstBit lastBit group pages) := by
  induction pages generalizing bitmap with
  | nil => simp [takenInGroup]
  | cons page pages ih =>
      rw [List.foldl_cons, ih]
      simp only [updatePageSummaries, takenInGroup, List.filter_cons]
      by_cases here : page / hbmPagesPerGroup = group
      · simp only [here, Function.update_self, decide_true, if_true, List.map_cons, List.sum_cons,
          UInt64.ofNat_add, UInt64.add_assoc]
      · simp [here, Function.update_of_ne (Ne.symm here)]

/-- The pages of a run, as the allocator walks them. -/
theorem updateSummaries_eq_foldl (change : UInt64 → UInt64 → UInt64) (bitmap : HierBitmap)
    (firstBit lastBit : Nat) :
    updateSummaries change bitmap firstBit lastBit =
      ((List.range (lastBit / bitmapBitsPerPage - firstBit / bitmapBitsPerPage + 1)).map
        (firstBit / bitmapBitsPerPage + ·)).foldl
          (updatePageSummaries change firstBit lastBit) bitmap := by
  rw [List.foldl_map]
  rfl

theorem HierBitmap.ext_summaries {first second : HierBitmap}
    (rest : second = { first with
      l1FreeCounts := second.l1FreeCounts, l2TotalFree := second.l2TotalFree })
    (level1 : ∀ group, second.l1FreeCounts group = first.l1FreeCounts group)
    (level2 : second.l2TotalFree = first.l2TotalFree) : second = first := by
  rw [rest, level2, funext level1]

/-- Clearing a run that was clear undoes marking it. -/
theorem unmarkRun_markRun {bitmap : HierBitmap} {start n : Nat}
    (clear : FreeRun (bitGet bitmap.l0Bits) n start) :
    unmarkRun (markRun bitmap start n) start n = bitmap := by
  apply HierBitmap.ext_summaries
  · rw [unmarkRun, updateSummaries_eq]
    simp only [markRun_l0Bits, clrRange_setRange clear]
    rw [markRun, updateSummaries_eq]
  · intro group
    simp only [unmarkRun, markRun, updateSummaries_eq_foldl, foldl_l1FreeCounts_add,
      foldl_l1FreeCounts_sub]
    grind
  · simp only [unmarkRun, markRun, updateSummaries_eq_foldl, foldl_l2TotalFree_add,
      foldl_l2TotalFree_sub]
    grind

/-- Marking a run that was marked undoes clearing it. -/
theorem markRun_unmarkRun {bitmap : HierBitmap} {start n : Nat}
    (taken : ∀ index < n, bitGet bitmap.l0Bits (start + index) = true) :
    markRun (unmarkRun bitmap start n) start n = bitmap := by
  apply HierBitmap.ext_summaries
  · rw [markRun, updateSummaries_eq]
    simp only [unmarkRun_l0Bits, setRange_clrRange taken]
    rw [unmarkRun, updateSummaries_eq]
  · intro group
    simp only [unmarkRun, markRun, updateSummaries_eq_foldl, foldl_l1FreeCounts_add,
      foldl_l1FreeCounts_sub]
    grind
  · simp only [unmarkRun, markRun, updateSummaries_eq_foldl, foldl_l2TotalFree_add,
      foldl_l2TotalFree_sub]
    grind

/-- The page images that cover the bits of a run, as block writes. -/
def pageWrites (mount : NebulaMount) (start n : Nat) : List (Nat × Block) :=
  rangeWrites (mount.sb.bitmapLba.toNat + start / bitmapBitsPerPage)
    ((List.range ((start + n - 1) / bitmapBitsPerPage - start / bitmapBitsPerPage + 1)).map
      fun index => mount.bitmap.l0Bits (start / bitmapBitsPerPage + index))

/-- Every page write carries the current image of a page of the run. -/
theorem mem_pageWrites {mount : NebulaMount} {start n : Nat} {write : Nat × Block}
    (positive : 0 < n) (member : write ∈ pageWrites mount start n) :
    ∃ page, start / bitmapBitsPerPage ≤ page ∧ page ≤ (start + n - 1) / bitmapBitsPerPage ∧
      write = (mount.sb.bitmapLba.toNat + page, mount.bitmap.l0Bits page) := by
  obtain ⟨index, inside, rfl⟩ := mem_rangeWrites.mp member
  rw [List.length_map, List.length_range] at inside
  have order : start / bitmapBitsPerPage ≤ (start + n - 1) / bitmapBitsPerPage :=
    Nat.div_le_div_right (by omega)
  refine ⟨start / bitmapBitsPerPage + index, by omega, by omega, ?_⟩
  simp [Nat.add_assoc]

/-- A page inside the run reads back as its image. -/
theorem applyWrites_pageWrites {mount : NebulaMount} {start n page : Nat} (base : Nat → Block)
    (low : start / bitmapBitsPerPage ≤ page) (high : page ≤ (start + n - 1) / bitmapBitsPerPage) :
    applyWrites base (pageWrites mount start n) (mount.sb.bitmapLba.toNat + page) =
      mount.bitmap.l0Bits page := by
  have inside : page - start / bitmapBitsPerPage <
      ((List.range ((start + n - 1) / bitmapBitsPerPage - start / bitmapBitsPerPage + 1)).map
        fun index => mount.bitmap.l0Bits (start / bitmapBitsPerPage + index)).length := by
    rw [List.length_map, List.length_range]
    omega
  have image := @applyWrites_rangeWrites_get _ base
    (mount.sb.bitmapLba.toNat + start / bitmapBitsPerPage) _ _ inside
  rw [Nat.add_assoc, Nat.add_sub_cancel' low] at image
  rw [pageWrites, image]
  simp [Nat.add_sub_cancel' low]

theorem flushDirtyPages_eq (outcome : IoOutcome) (disk : Disk) (mount : NebulaMount)
    (start n : Nat) :
    ∃ part : List (Nat × Block), part.Sublist (pageWrites mount start n) ∧
      (flushDirtyPages outcome disk mount start (start + n - 1)).2 = disk.push part :=
  nebulaIoWrite_push _ _ _ _

/-! ## What the allocator does -/

/-- The two ways an allocation can end. -/
inductive AllocResult (disk : Disk) (mount : NebulaMount) (n : Nat) :
    Except Errno Nat × Disk × NebulaMount → Prop
  /-- The first free run is marked and its pages are written. -/
  | ok (start : Nat) (positive : 0 < n) (free : FreeRun (bitGet mount.bitmap.l0Bits) n start)
      (inside : start + n ≤ searchedBits mount)
      (least : ∀ earlier < start, ¬ FreeRun (bitGet mount.bitmap.l0Bits) n earlier)
      (room : n ≤ mount.bitmap.l2TotalFree.toNat) :
      AllocResult disk mount n
        (.ok start,
          disk.push (pageWrites (mount.withBitmap (markRun mount.bitmap start n)) start n),
          mount.withBitmap (markRun mount.bitmap start n))
  /-- The loaded bitmap is as before; pages of a free run may have been written. -/
  | error (error : Errno) (start : Nat) (part : List (Nat × Block))
      (sub : part.Sublist
        (pageWrites (mount.withBitmap (markRun mount.bitmap start n)) start n))
      (inside : part ≠ [] → 0 < n ∧ start + n ≤ searchedBits mount) :
      AllocResult disk mount n (.error error, disk.push part, mount)

theorem claimRun_result {outcome : IoOutcome} {disk : Disk} {mount : NebulaMount} {start n : Nat}
    (positive : 0 < n) (free : FreeRun (bitGet mount.bitmap.l0Bits) n start)
    (inside : start + n ≤ searchedBits mount)
    (least : ∀ earlier < start, ¬ FreeRun (bitGet mount.bitmap.l0Bits) n earlier)
    (room : n ≤ mount.bitmap.l2TotalFree.toNat) :
    AllocResult disk mount n (claimRun outcome disk mount start n) := by
  obtain ⟨part, sub, landed⟩ := flushDirtyPages_eq outcome disk
    (mount.withBitmap (markRun mount.bitmap start n)) start n
  have complete := @nebulaIoWrite_ok outcome disk
    (mount.sb.bitmapLba.toNat + start / bitmapBitsPerPage)
    ((List.range ((start + n - 1) / bitmapBitsPerPage - start / bitmapBitsPerPage + 1)).map
      fun index => (markRun mount.bitmap start n).l0Bits (start / bitmapBitsPerPage + index))
  simp only [claimRun]
  cases written : flushDirtyPages outcome disk
      (mount.withBitmap (markRun mount.bitmap start n)) start (start + n - 1) with
  | mk status after =>
      rw [written] at landed
      simp only at landed
      cases status with
      | error error =>
          simp only [NebulaMount.withBitmap_bitmap, unmarkRun_markRun free,
            NebulaMount.withBitmap_withBitmap, NebulaMount.withBitmap_self, landed]
          exact .error error start part sub fun _ => ⟨positive, inside⟩
      | ok done =>
          have all := (complete (congrArg Prod.fst written)).2
          rw [show after = _ from (congrArg Prod.snd written).symm.trans all]
          exact .ok start positive free inside least room

/-- Every allocation ends in one of the two ways. -/
theorem nebulaBlockAlloc_result (outcome : IoOutcome) (disk : Disk) (mount : NebulaMount)
    (n : Nat) :
    AllocResult disk mount n (nebulaBlockAlloc outcome disk mount n) := by
  have refused : ∀ error, AllocResult disk mount n (.error error, disk, mount) := by
    intro error
    have result := @AllocResult.error disk mount n error 0 [] (List.nil_sublist _)
      fun some => absurd rfl some
    rwa [Disk.push_nil] at result
  simp only [nebulaBlockAlloc]
  split_ifs with none short
  · exact refused .EINVAL
  · exact refused .ENOSPC
  · have positive : 0 < n := Nat.pos_of_ne_zero none
    cases found : firstRun (bitGet mount.bitmap.l0Bits) n (searchedBits mount) with
    | none => exact refused .ENOSPC
    | some start =>
        obtain ⟨free, inside, least⟩ := firstRun_eq_some positive found
        exact claimRun_result positive free inside least (by omega)

/-- An allocation that fails without effect changes nothing. -/
theorem nebulaBlockAlloc_atomic {outcome : IoOutcome} (atomic : outcome.Atomic) {disk : Disk}
    {mount : NebulaMount} {n : Nat} {error : Errno}
    (failed : (nebulaBlockAlloc outcome disk mount n).1 = .error error) :
    (nebulaBlockAlloc outcome disk mount n).2 = (disk, mount) := by
  simp only [nebulaBlockAlloc] at failed ⊢
  split_ifs at failed ⊢ with none short
  · rfl
  · rfl
  · cases found : firstRun (bitGet mount.bitmap.l0Bits) n (searchedBits mount) with
    | none => rfl
    | some start =>
        obtain ⟨free, -, -⟩ := firstRun_eq_some (Nat.pos_of_ne_zero none) found
        simp only [found, claimRun] at failed ⊢
        cases written : flushDirtyPages outcome disk
            (mount.withBitmap (markRun mount.bitmap start n)) start (start + n - 1) with
        | mk status after =>
            cases status with
            | ok done => simp [written] at failed
            | error error =>
                have same := nebulaIoWrite_atomic atomic (congrArg Prod.fst written)
                rw [show after = disk from (congrArg Prod.snd written).symm.trans same]
                simp only [NebulaMount.withBitmap_bitmap, unmarkRun_markRun free,
                  NebulaMount.withBitmap_withBitmap, NebulaMount.withBitmap_self]

/-- The checks of `nebula_block_free`. -/
def FreeAccepted (mount : NebulaMount) (lba n : Nat) : Prop :=
  n ≠ 0 ∧ (lba + n) % 2 ^ 64 ≤ mount.sb.deviceCapacityBlocks.toNat ∧
    ∀ index < n, bitGet mount.bitmap.l0Bits ((lba + index) % 2 ^ 64) = true

theorem nebulaBlockFree_refused {outcome : IoOutcome} {disk : Disk} {mount : NebulaMount}
    {lba n : Nat} (refused : ¬ FreeAccepted mount lba n) :
    ∃ error, nebulaBlockFree outcome disk mount lba n = (.error error, disk, mount) := by
  simp only [nebulaBlockFree]
  split_ifs with none beyond double
  · exact ⟨_, rfl⟩
  · exact ⟨_, rfl⟩
  · exact ⟨_, rfl⟩
  · refine absurd ⟨none, not_lt.mp beyond, ?_⟩ refused
    simpa using double

/-- The two ways an accepted free of an unwrapped range can end. -/
inductive FreeResult (disk : Disk) (mount : NebulaMount) (lba n : Nat) :
    Except Errno Unit × Disk × NebulaMount → Prop
  /-- The run is cleared and its pages are written. -/
  | ok :
      FreeResult disk mount lba n
        (.ok (),
          disk.push (pageWrites (mount.withBitmap (unmarkRun mount.bitmap lba n)) lba n),
          mount.withBitmap (unmarkRun mount.bitmap lba n))
  /-- The loaded bitmap is as before; pages of the run may have been written. -/
  | error (error : Errno) (part : List (Nat × Block))
      (sub : part.Sublist (pageWrites (mount.withBitmap (unmarkRun mount.bitmap lba n)) lba n)) :
      FreeResult disk mount lba n (.error error, disk.push part, mount)

/-- The bits of an accepted free, read without the 64-bit wrap. -/
theorem FreeAccepted.taken {mount : NebulaMount} {lba n : Nat} (accepted : FreeAccepted mount lba n)
    (unwrapped : lba + n < 2 ^ 64) :
    0 < n ∧ lba + n ≤ mount.sb.deviceCapacityBlocks.toNat ∧
      ∀ index < n, bitGet mount.bitmap.l0Bits (lba + index) = true := by
  obtain ⟨some, inside, taken⟩ := accepted
  rw [Nat.mod_eq_of_lt unwrapped] at inside
  refine ⟨Nat.pos_of_ne_zero some, inside, fun index below => ?_⟩
  have here := taken index below
  rwa [Nat.mod_eq_of_lt (by omega)] at here

/-- An accepted free writes its pages, and clears the run if that succeeds. -/
theorem nebulaBlockFree_accepted (outcome : IoOutcome) (disk : Disk) {mount : NebulaMount}
    {lba n : Nat} (accepted : FreeAccepted mount lba n) (unwrapped : lba + n < 2 ^ 64) :
    nebulaBlockFree outcome disk mount lba n =
      match flushDirtyPages outcome disk (mount.withBitmap (unmarkRun mount.bitmap lba n)) lba
          (lba + n - 1) with
      | (.ok (), disk) => (.ok (), disk, mount.withBitmap (unmarkRun mount.bitmap lba n))
      | (.error error, disk) => (.error error, disk, mount) := by
  obtain ⟨positive, inside, taken⟩ := accepted.taken unwrapped
  have single : ¬ ((List.range n).any fun index =>
      !bitGet mount.bitmap.l0Bits ((lba + index) % 2 ^ 64)) = true := by
    simpa using accepted.2.2
  rw [nebulaBlockFree, if_neg accepted.1, if_neg (not_lt.mpr accepted.2.1), if_neg single,
    Nat.mod_eq_of_lt (show lba + n - 1 < 2 ^ 64 by omega)]
  simp only [NebulaMount.withBitmap_bitmap, markRun_unmarkRun taken,
    NebulaMount.withBitmap_withBitmap, NebulaMount.withBitmap_self]

theorem nebulaBlockFree_result (outcome : IoOutcome) (disk : Disk) {mount : NebulaMount}
    {lba n : Nat} (accepted : FreeAccepted mount lba n) (unwrapped : lba + n < 2 ^ 64) :
    FreeResult disk mount lba n (nebulaBlockFree outcome disk mount lba n) := by
  obtain ⟨part, sub, landed⟩ := flushDirtyPages_eq outcome disk
    (mount.withBitmap (unmarkRun mount.bitmap lba n)) lba n
  have complete := @nebulaIoWrite_ok outcome disk
    (mount.sb.bitmapLba.toNat + lba / bitmapBitsPerPage)
    ((List.range ((lba + n - 1) / bitmapBitsPerPage - lba / bitmapBitsPerPage + 1)).map
      fun index => (unmarkRun mount.bitmap lba n).l0Bits (lba / bitmapBitsPerPage + index))
  rw [nebulaBlockFree_accepted outcome disk accepted unwrapped]
  cases written : flushDirtyPages outcome disk
      (mount.withBitmap (unmarkRun mount.bitmap lba n)) lba (lba + n - 1) with
  | mk status after =>
      rw [written] at landed
      simp only at landed
      cases status with
      | error error =>
          rw [landed]
          exact .error error part sub
      | ok done =>
          have all := (complete (congrArg Prod.fst written)).2
          rw [show after = _ from (congrArg Prod.snd written).symm.trans all]
          exact .ok

/-- A free that fails without effect changes nothing. -/
theorem nebulaBlockFree_atomic {outcome : IoOutcome} (atomic : outcome.Atomic) {disk : Disk}
    {mount : NebulaMount} {lba n : Nat} (unwrapped : lba + n < 2 ^ 64) {error : Errno}
    (failed : (nebulaBlockFree outcome disk mount lba n).1 = .error error) :
    (nebulaBlockFree outcome disk mount lba n).2 = (disk, mount) := by
  by_cases accepted : FreeAccepted mount lba n
  · rw [nebulaBlockFree_accepted outcome disk accepted unwrapped] at failed ⊢
    cases written : flushDirtyPages outcome disk
        (mount.withBitmap (unmarkRun mount.bitmap lba n)) lba (lba + n - 1) with
    | mk status after =>
        cases status with
        | ok done => simp [written] at failed
        | error error =>
            have same := nebulaIoWrite_atomic atomic (congrArg Prod.fst written)
            rw [show after = disk from (congrArg Prod.snd written).symm.trans same]
  · obtain ⟨reason, refused⟩ := nebulaBlockFree_refused accepted
    rw [refused]

end MiniFs
