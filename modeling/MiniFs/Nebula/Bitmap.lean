import Mathlib.Data.Nat.Bitwise
import MiniFs.Lib.Counting
import MiniFs.Nebula.Layout

/-!
# The hierarchical bitmap

Level 0 holds one bit per device block, in pages of one device block each; bit 1 means allocated.
Level 1 counts the free blocks of each group of 64 pages and level 2 those of the whole device.
Statements about level 0 are about `bitGet` alone: two bitmaps with the same bits are equal.
-/

namespace MiniFs

/-- `bm[index]` of a paged byte array. -/
def pagedByte (pages : Nat → Block) (index : Nat) : UInt8 :=
  pages (index / 4096) ⟨index % 4096, Nat.mod_lt _ (by decide)⟩

/-- Store `bm[index]` of a paged byte array. -/
def setPagedByte (pages : Nat → Block) (index : Nat) (byte : UInt8) : Nat → Block :=
  Function.update pages (index / 4096)
    (Function.update (pages (index / 4096)) ⟨index % 4096, Nat.mod_lt _ (by decide)⟩ byte)

/-- `bit_get`. -/
def bitGet (pages : Nat → Block) (index : Nat) : Bool :=
  (pagedByte pages (index / 8)).toNat.testBit (index % 8)

/-- `bit_set`. -/
def bitSet (pages : Nat → Block) (index : Nat) : Nat → Block :=
  setPagedByte pages (index / 8)
    (UInt8.ofNat ((pagedByte pages (index / 8)).toNat ||| 2 ^ (index % 8)))

/-- `bit_clr`. -/
def bitClr (pages : Nat → Block) (index : Nat) : Nat → Block :=
  setPagedByte pages (index / 8)
    (UInt8.ofNat ((pagedByte pages (index / 8)).toNat &&& (255 ^^^ 2 ^ (index % 8))))

/-- The bit of a page at a byte offset and a bit offset. -/
theorem bitGet_in_page (pages : Nat → Block) (page : Nat) (offset : Fin 4096) {bit : Nat}
    (small : bit < 8) :
    bitGet pages (page * 32768 + (offset * 8 + bit)) = (pages page offset).toNat.testBit bit := by
  have indices : (page * 32768 + (offset.val * 8 + bit)) / 8 = page * 4096 + offset ∧
      (page * 32768 + (offset.val * 8 + bit)) % 8 = bit ∧
      (page * 4096 + offset.val) / 4096 = page ∧ (page * 4096 + offset.val) % 4096 = offset := by
    refine ⟨?_, ?_, ?_, ?_⟩ <;> omega
  obtain ⟨byteIndex, bitIndex, pageIndex, offsetIndex⟩ := indices
  simp only [bitGet, pagedByte, byteIndex, bitIndex, pageIndex, offsetIndex, Fin.eta]

theorem pagedByte_setPagedByte (pages : Nat → Block) (index other : Nat) (byte : UInt8) :
    pagedByte (setPagedByte pages index byte) other =
      if other = index then byte else pagedByte pages other := by
  simp only [pagedByte, setPagedByte]
  split_ifs with same
  · subst same
    simp
  · by_cases page : other / 4096 = index / 4096
    · rw [page, Function.update_self, Function.update_of_ne]
      intro offset
      rw [Fin.mk.injEq] at offset
      omega
    · rw [Function.update_of_ne page]

theorem testBit_ofNat_byte (value index : Nat) (inside : index < 8) :
    (UInt8.ofNat value).toNat.testBit index = value.testBit index := by
  rw [UInt8.toNat_ofNat', Nat.testBit_mod_two_pow]
  simp [inside]

@[simp] theorem bitGet_bitSet (pages : Nat → Block) (index other : Nat) :
    bitGet (bitSet pages index) other = (decide (other = index) || bitGet pages other) := by
  simp only [bitGet, bitSet, pagedByte_setPagedByte]
  split_ifs with byte
  · rw [testBit_ofNat_byte _ _ (Nat.mod_lt _ (by decide)), Nat.testBit_or, Nat.testBit_two_pow,
      ← byte, Bool.or_comm]
    congr 1
    rw [decide_eq_decide]
    omega
  · have different : other ≠ index := fun same => byte (by rw [same])
    simp [different]

@[simp] theorem bitGet_bitClr (pages : Nat → Block) (index other : Nat) :
    bitGet (bitClr pages index) other = (!decide (other = index) && bitGet pages other) := by
  simp only [bitGet, bitClr, pagedByte_setPagedByte]
  split_ifs with byte
  · have ones : (255 : Nat).testBit (other % 8) = true := by
      have := Nat.testBit_two_pow_sub_one 8 (other % 8)
      simpa [Nat.mod_lt other (show 0 < 8 by decide)] using this
    rw [testBit_ofNat_byte _ _ (Nat.mod_lt _ (by decide)), Nat.testBit_and, Nat.testBit_xor,
      Nat.testBit_two_pow, ones, ← byte, Bool.and_comm]
    congr 1
    have : (index % 8 = other % 8) ↔ (other = index) := by omega
    by_cases same : other = index <;> simp [this, same]
  · have different : other ≠ index := fun same => byte (by rw [same])
    simp [different]

/-- Bitmaps with the same bits are equal. -/
theorem bitmap_ext {pages pages' : Nat → Block}
    (same : ∀ index, bitGet pages index = bitGet pages' index) : pages = pages' := by
  funext page
  funext offset
  apply UInt8.toNat_inj.mp
  apply Nat.eq_of_testBit_eq
  intro bit
  by_cases inside : bit < 8
  · have here := same (page * 32768 + (offset * 8 + bit))
    rwa [bitGet_in_page _ _ _ inside, bitGet_in_page _ _ _ inside] at here
  · have high : ∀ byte : UInt8, byte.toNat.testBit bit = false := fun byte =>
      Nat.testBit_lt_two_pow
        (lt_of_lt_of_le byte.toNat_lt (Nat.pow_le_pow_right (by decide) (by omega)))
    rw [high, high]

/-- Set the `n` bits from `start` on. -/
def setRange (pages : Nat → Block) (start n : Nat) : Nat → Block :=
  (List.range n).foldl (fun current index => bitSet current (start + index)) pages

/-- Clear the `n` bits from `start` on. -/
def clrRange (pages : Nat → Block) (start n : Nat) : Nat → Block :=
  (List.range n).foldl (fun current index => bitClr current (start + index)) pages

theorem bitGet_setRange (pages : Nat → Block) (start n index : Nat) :
    bitGet (setRange pages start n) index =
      (decide (start ≤ index ∧ index < start + n) || bitGet pages index) := by
  induction n with
  | zero =>
      have : ¬ (start ≤ index ∧ index < start) := by omega
      simp [setRange, this]
  | succ n ih =>
      have step : setRange pages start (n + 1) = bitSet (setRange pages start n) (start + n) := by
        simp [setRange, List.range_succ]
      rw [step, bitGet_bitSet, ih, ← Bool.or_assoc, ← Bool.decide_or]
      congr 2
      apply propext
      omega

theorem bitGet_clrRange (pages : Nat → Block) (start n index : Nat) :
    bitGet (clrRange pages start n) index =
      (!decide (start ≤ index ∧ index < start + n) && bitGet pages index) := by
  induction n with
  | zero =>
      have : ¬ (start ≤ index ∧ index < start) := by omega
      simp [clrRange, this]
  | succ n ih =>
      have step : clrRange pages start (n + 1) = bitClr (clrRange pages start n) (start + n) := by
        simp [clrRange, List.range_succ]
      rw [step, bitGet_bitClr, ih, ← Bool.and_assoc, ← Bool.not_or, ← Bool.decide_or]
      congr 3
      apply propext
      omega

/-- Clearing a range that was clear undoes setting it. -/
theorem clrRange_setRange {pages : Nat → Block} {start n : Nat}
    (clear : ∀ index < n, bitGet pages (start + index) = false) :
    clrRange (setRange pages start n) start n = pages := by
  apply bitmap_ext
  intro index
  rw [bitGet_clrRange, bitGet_setRange]
  by_cases inside : start ≤ index ∧ index < start + n
  · have := clear (index - start) (by omega)
    rw [show start + (index - start) = index by omega] at this
    simp [inside, this]
  · simp [inside]

/-- Setting a range that was set undoes clearing it. -/
theorem setRange_clrRange {pages : Nat → Block} {start n : Nat}
    (taken : ∀ index < n, bitGet pages (start + index) = true) :
    setRange (clrRange pages start n) start n = pages := by
  apply bitmap_ext
  intro index
  rw [bitGet_setRange, bitGet_clrRange]
  by_cases inside : start ≤ index ∧ index < start + n
  · have := taken (index - start) (by omega)
    rw [show start + (index - start) = index by omega] at this
    simp [inside, this]
  · simp [inside]

/-- The bits of a page depend on that page only. -/
theorem bitGet_congr {pages pages' : Nat → Block} {index : Nat}
    (same : pages (index / 32768) = pages' (index / 32768)) :
    bitGet pages index = bitGet pages' index := by
  have page : index / 8 / 4096 = index / 32768 := by omega
  simp only [bitGet, pagedByte, page, same]

/-! ## Loading -/

/-- `NEBULA_HBM_PAGES_PER_GROUP`. -/
abbrev hbmPagesPerGroup : Nat := 64

/-- `struct nebula_hier_bitmap`. -/
structure HierBitmap where
  totalBlocks : Nat
  numPages : Nat
  l0Bits : Nat → Block
  numGroups : Nat
  l1FreeCounts : Nat → UInt64
  l2TotalFree : UInt64

/-- `popcount8`. -/
def popcount8 (byte : UInt8) : Nat :=
  let pairs : UInt8 := (byte &&& (0x55 : UInt8)) + ((byte >>> 1) &&& (0x55 : UInt8))
  let nibbles : UInt8 := (pairs &&& (0x33 : UInt8)) + ((pairs >>> 2) &&& (0x33 : UInt8))
  let total : UInt8 := (nibbles &&& (0x0F : UInt8)) + ((nibbles >>> 4) &&& (0x0F : UInt8))
  total.toNat

/-- Allocated bits of a page. -/
def pageAllocBits (page : Block) : Nat :=
  (List.ofFn page).foldl (fun count byte => count + popcount8 byte) 0

/-- Device blocks a page stands for: all of them, except in the last page. -/
def pageBlocks (totalBlocks page : Nat) : Nat :=
  if totalBlocks < page * bitmapBitsPerPage + bitmapBitsPerPage then
    if page * bitmapBitsPerPage < totalBlocks then totalBlocks - page * bitmapBitsPerPage else 0
  else bitmapBitsPerPage

/-- Free blocks of a page, as the loader counts them. -/
def freeInPage (totalBlocks page : Nat) (bits : Block) : Nat :=
  if pageBlocks totalBlocks page ≤ pageAllocBits bits then 0
  else pageBlocks totalBlocks page - pageAllocBits bits

/-- The summaries of a bitmap: free counts by group of pages, and their total. -/
def hbmSummaries (bits : Nat → Block) (totalBlocks numPages : Nat) : (Nat → UInt64) × UInt64 :=
  (List.range numPages).foldl
    (fun sums page =>
      let free := UInt64.ofNat (freeInPage totalBlocks page (bits page))
      (Function.update sums.1 (page / hbmPagesPerGroup)
        (sums.1 (page / hbmPagesPerGroup) + free), sums.2 + free))
    (fun _ => 0, 0)

/-- `page_blocks` of the loader, with its sums in 64 bits. -/
def wrappedPageBlocks (totalBlocks page : Nat) : Nat :=
  let pageStartBlock := page * bitmapBitsPerPage % 2 ^ 64
  if totalBlocks < (pageStartBlock + bitmapBitsPerPage) % 2 ^ 64 then
    if pageStartBlock < totalBlocks then totalBlocks - pageStartBlock else 0
  else bitmapBitsPerPage

/-- The body of the loader's summary loop, with a pages buffer of `l0Bytes` bytes and a counts
buffer of `numGroups` words.  `none` is an access past the end of a buffer. -/
def hbmLoadPage (bits : Nat → Block) (l0Bytes numGroups totalBlocks : Nat)
    (sums : Option ((Nat → UInt64) × UInt64)) (page : Nat) : Option ((Nat → UInt64) × UInt64) :=
  let offset := page * blockSize % 2 ^ 64
  let group := page / hbmPagesPerGroup % 2 ^ 32
  if l0Bytes < offset + blockSize ∨ numGroups ≤ group then none
  else
    let allocBits := pageAllocBits (bits (offset / blockSize))
    let pageBlocks := wrappedPageBlocks totalBlocks page
    let free := UInt64.ofNat (if pageBlocks ≤ allocBits then 0 else pageBlocks - allocBits)
    sums.map fun sums => (Function.update sums.1 group (sums.1 group + free), sums.2 + free)

/-- `sizeof(struct nebula_hier_bitmap)`. -/
def sizeofHierBitmap : Nat := 48

/-- `nebula_hbm_load`, on an allocator that grants the requests in `allocates`.  The page count is
cut to the 32 bits of the read request; pages past it keep what the fresh buffer `heap` held. -/
def nebulaHbmLoad (heap : Nat → Block) (disk : Disk)
    (bitmapLba bitmapBlockCount totalBlocks : Nat) (allocates : Nat → Bool := fun _ => true) :
    Except Errno HierBitmap :=
  if bitmapBlockCount = 0 then .error .EINVAL
  else if allocates sizeofHierBitmap = false then .error .ENOMEM
  else
    let numGroups :=
      (bitmapBlockCount + hbmPagesPerGroup - 1) % 2 ^ 64 / hbmPagesPerGroup % 2 ^ 32
    let l0Bytes := bitmapBlockCount * blockSize % 2 ^ 64
    if allocates l0Bytes = false then .error .ENOMEM
    else if allocates (numGroups * 8) = false then .error .ENOMEM
    else
      match nebulaIoRead .ok disk bitmapLba (bitmapBlockCount % 2 ^ 32) with
      | .error error => .error error
      | .ok pages =>
          let l0Bits := fun page => pages.getD page (heap page)
          match (List.range bitmapBlockCount).foldl
              (hbmLoadPage l0Bits l0Bytes numGroups totalBlocks) (some (fun _ => 0, 0)) with
          | none => .error .overrun
          | some (l1FreeCounts, l2TotalFree) =>
              .ok
                { totalBlocks, numPages := bitmapBlockCount, l0Bits, numGroups, l1FreeCounts,
                  l2TotalFree }

/-- The page counts for which the loader stays in its buffers. -/
def hbmPageLimit : Nat := 2 ^ 38 - 64

/-- The allocator grants the three requests of the loader. -/
def HbmGranted (allocates : Nat → Bool) (count : Nat) : Prop :=
  allocates sizeofHierBitmap = true ∧ allocates (count * blockSize) = true ∧
    allocates ((count + hbmPagesPerGroup - 1) / hbmPagesPerGroup * 8) = true

/-- The bitmap of the pages that a read returns. -/
def loadedBitmap (heap : Nat → Block) (pages : List Block) (count totalBlocks : Nat) : HierBitmap :=
  let l0Bits := fun page => pages.getD page (heap page)
  { totalBlocks, numPages := count, l0Bits
    numGroups := (count + hbmPagesPerGroup - 1) / hbmPagesPerGroup
    l1FreeCounts := (hbmSummaries l0Bits totalBlocks count).1
    l2TotalFree := (hbmSummaries l0Bits totalBlocks count).2 }

section Load

variable {bits : Nat → Block} {l0Bytes numGroups totalBlocks count : Nat}

theorem wrappedPageBlocks_eq {page : Nat} (small : page < 2 ^ 38) :
    wrappedPageBlocks totalBlocks page = pageBlocks totalBlocks page := by
  simp only [wrappedPageBlocks, pageBlocks, bitmapBitsPerPage]
  rw [Nat.mod_eq_of_lt (show page * 32768 < 2 ^ 64 by omega), Nat.mod_eq_of_lt (by omega)]

/-- Inside its buffers the loader adds the free blocks of a page to the summaries. -/
theorem hbmLoadPage_some (within : count ≤ hbmPageLimit) {page : Nat} (inside : page < count)
    (sums : (Nat → UInt64) × UInt64) :
    hbmLoadPage bits (count * blockSize) ((count + hbmPagesPerGroup - 1) / hbmPagesPerGroup)
        totalBlocks (some sums) page =
      some (Function.update sums.1 (page / hbmPagesPerGroup) (sums.1 (page / hbmPagesPerGroup) +
          UInt64.ofNat (freeInPage totalBlocks page (bits page))),
        sums.2 + UInt64.ofNat (freeInPage totalBlocks page (bits page))) := by
  simp only [hbmPageLimit] at within
  have offset : page * 4096 % 2 ^ 64 = page * 4096 := Nat.mod_eq_of_lt (by omega)
  have group : page / 64 % 2 ^ 32 = page / 64 := Nat.mod_eq_of_lt (by omega)
  simp only [hbmLoadPage, blockSize, hbmPagesPerGroup, offset, group]
  rw [if_neg (by omega), Nat.mul_div_cancel page (by decide), wrappedPageBlocks_eq (by omega)]
  rfl

theorem foldl_hbmLoadPage (within : count ≤ hbmPageLimit) {n : Nat} (inside : n ≤ count) :
    (List.range n).foldl (hbmLoadPage bits (count * blockSize)
      ((count + hbmPagesPerGroup - 1) / hbmPagesPerGroup) totalBlocks) (some (fun _ => 0, 0)) =
        some (hbmSummaries bits totalBlocks n) := by
  induction n with
  | zero => rfl
  | succ n ih =>
      rw [List.range_succ, List.foldl_append, ih (by omega), List.foldl_cons, List.foldl_nil,
        hbmLoadPage_some within (by omega), hbmSummaries, hbmSummaries, List.range_succ,
        List.foldl_append]
      rfl

theorem foldl_hbmLoadPage_none (pages : List Nat) :
    pages.foldl (hbmLoadPage bits l0Bytes numGroups totalBlocks) none = none := by
  induction pages with
  | nil => rfl
  | cons page pages ih => simpa [hbmLoadPage] using ih

/-- With more pages the loader leaves the buffer of the group counts: its size is the
number of groups in 32 bits. -/
theorem foldl_hbmLoadPage_overrun (beyond : hbmPageLimit < count) (small : numGroups < 2 ^ 32)
    (start : Option ((Nat → UInt64) × UInt64)) :
    (List.range count).foldl (hbmLoadPage bits l0Bytes numGroups totalBlocks) start = none := by
  simp only [hbmPageLimit] at beyond
  obtain ⟨rest, split⟩ : ∃ rest, count = numGroups * 64 + 1 + rest :=
    Nat.exists_eq_add_of_le (by omega)
  have group : numGroups * 64 / hbmPagesPerGroup % 2 ^ 32 = numGroups := by
    rw [Nat.mul_div_cancel numGroups (by decide), Nat.mod_eq_of_lt small]
  have left : ∀ sums, hbmLoadPage bits l0Bytes numGroups totalBlocks sums (numGroups * 64) =
      none := by
    intro sums
    simp only [hbmLoadPage, group, le_refl, or_true, if_true]
  rw [split, List.range_add, List.foldl_append, List.range_succ, List.foldl_append,
    List.foldl_cons, List.foldl_nil, left, foldl_hbmLoadPage_none]

/-- What the loader needs, and what it returns. -/
theorem nebulaHbmLoad_eq_ok_iff {heap : Nat → Block} {disk : Disk} {lba : Nat}
    {allocates : Nat → Bool} {bitmap : HierBitmap} :
    nebulaHbmLoad heap disk lba count totalBlocks allocates = .ok bitmap ↔
      count ≠ 0 ∧ count ≤ hbmPageLimit ∧ HbmGranted allocates count ∧
        ∃ pages, nebulaIoRead .ok disk lba (count % 2 ^ 32) = .ok pages ∧
          loadedBitmap heap pages count totalBlocks = bitmap := by
  by_cases none : count = 0
  · simp [nebulaHbmLoad, none]
  rw [nebulaHbmLoad, if_neg none]
  by_cases within : count ≤ hbmPageLimit
  · have bound : count ≤ 2 ^ 38 - 64 := within
    have groups : (count + hbmPagesPerGroup - 1) % 2 ^ 64 / hbmPagesPerGroup % 2 ^ 32 =
        (count + hbmPagesPerGroup - 1) / hbmPagesPerGroup := by
      simp only [hbmPagesPerGroup]
      omega
    have bytes : count * blockSize % 2 ^ 64 = count * blockSize := by
      simp only [blockSize]
      omega
    simp only [groups, bytes, foldl_hbmLoadPage within le_rfl, HbmGranted]
    split_ifs with record l0Bits counts
    · simp [record]
    · simp [l0Bits]
    · refine iff_of_false (by simp) ?_
      rintro ⟨-, -, ⟨-, -, granted⟩, -⟩
      rw [counts] at granted
      contradiction
    · rw [Bool.not_eq_false] at record l0Bits counts
      simp only [ne_eq, none, not_false_iff, within, record, l0Bits, counts, true_and]
      cases read : nebulaIoRead .ok disk lba (count % 2 ^ 32) with
      | error error => simp
      | ok pages =>
          simp only [Except.ok.injEq, exists_eq_left']
          exact Iff.rfl
  · have overrun := fun bits l0Bytes => @foldl_hbmLoadPage_overrun bits l0Bytes
      ((count + hbmPagesPerGroup - 1) % 2 ^ 64 / hbmPagesPerGroup % 2 ^ 32) totalBlocks count
      (not_le.mp within) (Nat.mod_lt _ (by decide)) (some (fun _ => 0, 0))
    simp only [overrun, within]
    split_ifs
    · simp
    · simp
    · simp
    · cases nebulaIoRead .ok disk lba (count % 2 ^ 32) with
      | error error => simp
      | ok pages => simp

/-- Under an allocator that grants everything the loader fails for a region it cannot read only. -/
theorem nebulaHbmLoad_ok {heap : Nat → Block} {disk : Disk} {lba : Nat} {pages : List Block}
    (positive : count ≠ 0) (fits : count < 2 ^ 32)
    (read : nebulaIoRead .ok disk lba count = .ok pages) :
    nebulaHbmLoad heap disk lba count totalBlocks =
      .ok (loadedBitmap heap pages count totalBlocks) := by
  have within : count ≤ hbmPageLimit := by
    simp only [hbmPageLimit]
    omega
  refine nebulaHbmLoad_eq_ok_iff.mpr ⟨positive, within, ⟨rfl, rfl, rfl⟩, pages, ?_, rfl⟩
  rw [Nat.mod_eq_of_lt fits, read]

end Load

/-- Clear bits below a bound. -/
def freeBelow (pages : Nat → Block) (bound : Nat) : Nat :=
  Nat.count (fun index => bitGet pages index = false) bound

theorem popcount8_eq_count (byte : UInt8) :
    popcount8 byte = Nat.count (fun bit => byte.toNat.testBit bit = true) 8 := by
  have all : ∀ value < 256, popcount8 (UInt8.ofNat value) =
      Nat.count (fun bit => (UInt8.ofNat value).toNat.testBit bit = true) 8 := by
    decide +kernel
  have here := all byte.toNat byte.toNat_lt
  rwa [UInt8.ofNat_toNat] at here

/-- The loader's popcount of a page is its number of set bits. -/
theorem pageAllocBits_eq_count (pages : Nat → Block) (page : Nat) :
    pageAllocBits (pages page) =
      Nat.count (fun index => bitGet pages (page * 32768 + index) = true) 32768 := by
  have upTo : ∀ n (inside : n ≤ 4096),
      ((List.ofFn (pages page)).take n).foldl (fun count byte => count + popcount8 byte) 0 =
        Nat.count (fun index => bitGet pages (page * 32768 + index) = true) (n * 8) := by
    intro n
    induction n with
    | zero => exact fun _ => rfl
    | succ n ih =>
        intro inside
        have bound : n < (List.ofFn (pages page)).length := by rw [List.length_ofFn]; omega
        rw [List.take_succ_eq_append_getElem bound, List.foldl_append, ih (by omega),
          Nat.succ_mul, Nat.count_add]
        simp only [List.foldl_cons, List.foldl_nil, List.getElem_ofFn, popcount8_eq_count]
        congr 1
        apply Nat.count_congr
        intro bit small
        rw [bitGet_in_page pages page ⟨n, inside⟩ small]
  have whole := upTo 4096 le_rfl
  rwa [List.take_of_length_le (by rw [List.length_ofFn])] at whole

theorem pageBlocks_add_min (totalBlocks page : Nat) :
    min (page * 32768) totalBlocks + pageBlocks totalBlocks page =
      min ((page + 1) * 32768) totalBlocks := by
  simp only [pageBlocks, bitmapBitsPerPage]
  split_ifs <;> omega

/-- With no bit set past the device, the loader counts the clear bits of each page. -/
theorem freeInPage_eq_count {pages : Nat → Block} {totalBlocks page : Nat}
    (past : ∀ index, totalBlocks ≤ index → index < (page + 1) * 32768 →
      bitGet pages index = false) :
    freeInPage totalBlocks page (pages page) =
      Nat.count (fun index => bitGet pages (min (page * 32768) totalBlocks + index) = false)
        (pageBlocks totalBlocks page) := by
  have room : pageBlocks totalBlocks page ≤ 32768 := by
    simp only [pageBlocks, bitmapBitsPerPage]
    split_ifs <;> omega
  have allocated : pageAllocBits (pages page) =
      Nat.count (fun index => bitGet pages (page * 32768 + index) = true)
        (pageBlocks totalBlocks page) := by
    rw [pageAllocBits_eq_count]
    apply Nat.count_eq_of_not room
    intro index low high
    have beyond : totalBlocks ≤ page * 32768 + index := by
      have := pageBlocks_add_min totalBlocks page
      omega
    simp [past _ beyond (by omega)]
  have complement := Nat.count_add_count_not
    (fun index => bitGet pages (page * 32768 + index) = true) (pageBlocks totalBlocks page)
  have free : Nat.count (fun index => bitGet pages (min (page * 32768) totalBlocks + index) = false)
      (pageBlocks totalBlocks page) =
      Nat.count (fun index => ¬ bitGet pages (page * 32768 + index) = true)
        (pageBlocks totalBlocks page) := by
    apply Nat.count_congr
    intro index inside
    have := pageBlocks_add_min totalBlocks page
    rw [show min (page * 32768) totalBlocks = page * 32768 by omega, Bool.not_eq_true]
  rw [freeInPage, free, allocated]
  split_ifs <;> omega

/-- The loader's total is the number of clear bits that stand for device blocks. -/
theorem hbmSummaries_total {bits : Nat → Block} {totalBlocks numPages : Nat}
    (past : ∀ index, totalBlocks ≤ index → index < numPages * 32768 →
      bitGet bits index = false) :
    (hbmSummaries bits totalBlocks numPages).2 =
      UInt64.ofNat (freeBelow bits (min (numPages * 32768) totalBlocks)) := by
  induction numPages with
  | zero => simp [hbmSummaries, freeBelow]
  | succ n ih =>
      have step : (hbmSummaries bits totalBlocks (n + 1)).2 =
          (hbmSummaries bits totalBlocks n).2 +
            UInt64.ofNat (freeInPage totalBlocks n (bits n)) := by
        simp [hbmSummaries, List.range_succ]
      have earlier : ∀ index, totalBlocks ≤ index → index < n * 32768 → bitGet bits index = false :=
        fun index beyond inside =>
          past index beyond (inside.trans_le (Nat.mul_le_mul_right _ n.le_succ))
      rw [step, ih earlier, freeInPage_eq_count past, ← UInt64.ofNat_add, ← pageBlocks_add_min,
        freeBelow, freeBelow, Nat.count_add]

end MiniFs
