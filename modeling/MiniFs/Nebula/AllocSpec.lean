import MiniFs.Nebula.AllocRuns

/-!
# What single allocator calls do

The allocation of a run, from any loaded bitmap with an exact free count, and the free of a range
given by an arbitrary 64-bit block address.
-/

namespace MiniFs

/-- With an exact free count the search decides the allocation. -/
theorem nebulaBlockAlloc_eq_claimRun {outcome : IoOutcome} {disk : Disk} {mount : NebulaMount}
    {n start : Nat} (positive : 0 < n)
    (exact : mount.bitmap.l2TotalFree.toNat = freeBelow mount.bitmap.l0Bits (searchedBits mount))
    (found : firstRun (bitGet mount.bitmap.l0Bits) n (searchedBits mount) = some start) :
    nebulaBlockAlloc outcome disk mount n = claimRun outcome disk mount start n := by
  obtain ⟨free, inside, -⟩ := firstRun_eq_some positive found
  have counted := run_le_count free inside
  have room : ¬ mount.bitmap.l2TotalFree.toNat < n := by
    rw [exact, freeBelow]
    omega
  rw [nebulaBlockAlloc, if_neg positive.ne', if_neg room, found]

/-- A claim whose page request succeeds marks the run. -/
theorem claimRun_ok {outcome : IoOutcome} {disk : Disk} {mount : NebulaMount} {start n : Nat}
    (written : (flushDirtyPages outcome disk (mount.withBitmap (markRun mount.bitmap start n)) start
      (start + n - 1)).1 = .ok ()) :
    (claimRun outcome disk mount start n).1 = .ok start ∧
      (claimRun outcome disk mount start n).2.2 =
        mount.withBitmap (markRun mount.bitmap start n) := by
  simp only [claimRun]
  cases flushed : flushDirtyPages outcome disk (mount.withBitmap (markRun mount.bitmap start n))
      start (start + n - 1) with
  | mk status after =>
      rw [flushed] at written
      simp only at written
      subst written
      exact ⟨rfl, rfl⟩

/-- From any loaded bitmap with an exact free count, an allocation whose page request succeeds takes
the first run of clear bits, and is refused without effect exactly where there is none. -/
theorem nebulaBlockAlloc_first_fit {outcome : IoOutcome} {disk : Disk} {mount : NebulaMount}
    {n : UInt32} (positive : 0 < n.toNat)
    (exact : mount.bitmap.l2TotalFree.toNat = freeBelow mount.bitmap.l0Bits (searchedBits mount))
    (written : ∀ start, start + n.toNat ≤ searchedBits mount →
      (flushDirtyPages outcome disk (mount.withBitmap (markRun mount.bitmap start n.toNat)) start
        (start + n.toNat - 1)).1 = .ok ()) :
    ((∃ lba, (nebulaBlockAlloc outcome disk mount n.toNat).1 = .ok lba) ↔
      ∃ start, start + n.toNat ≤ searchedBits mount ∧
        FreeRun (bitGet mount.bitmap.l0Bits) n.toNat start) ∧
    (∀ lba, (nebulaBlockAlloc outcome disk mount n.toNat).1 = .ok lba →
      IsLeast {start | start + n.toNat ≤ searchedBits mount ∧
        FreeRun (bitGet mount.bitmap.l0Bits) n.toNat start} lba ∧
      ∀ index, bitGet (nebulaBlockAlloc outcome disk mount n.toNat).2.2.bitmap.l0Bits index =
        (decide (lba ≤ index ∧ index < lba + n.toNat) || bitGet mount.bitmap.l0Bits index)) ∧
    ((¬ ∃ start, start + n.toNat ≤ searchedBits mount ∧
        FreeRun (bitGet mount.bitmap.l0Bits) n.toNat start) →
      nebulaBlockAlloc outcome disk mount n.toNat = (.error .ENOSPC, disk, mount)) := by
  cases found : firstRun (bitGet mount.bitmap.l0Bits) n.toNat (searchedBits mount) with
  | none =>
      have missing := firstRun_eq_none positive found
      have refused : nebulaBlockAlloc outcome disk mount n.toNat =
          (.error .ENOSPC, disk, mount) := by
        rw [nebulaBlockAlloc, if_neg positive.ne', found]
        split_ifs <;> rfl
      rw [refused]
      refine ⟨⟨?_, ?_⟩, ?_, fun _ => rfl⟩
      · rintro ⟨lba, done⟩
        contradiction
      · rintro ⟨start, inside, free⟩
        exact absurd free (missing start inside)
      · intro lba done
        contradiction
  | some start =>
      obtain ⟨free, inside, least⟩ := firstRun_eq_some positive found
      rw [nebulaBlockAlloc_eq_claimRun positive exact found]
      obtain ⟨status, marked⟩ := claimRun_ok (written start inside)
      refine ⟨⟨fun _ => ⟨start, inside, free⟩, fun _ => ⟨start, status⟩⟩, ?_, ?_⟩
      · intro lba done
        rw [status, Except.ok.injEq] at done
        subst done
        refine ⟨⟨⟨inside, free⟩, ?_⟩, fun index => ?_⟩
        · rintro earlier ⟨-, free'⟩
          by_contra less
          exact least earlier (not_le.mp less) free'
        · rw [marked, NebulaMount.withBitmap_bitmap, markRun_l0Bits, bitGet_setRange]
      · intro missing
        exact absurd ⟨start, inside, free⟩ missing

/-- On a fresh device of 256 MiB an allocation of five blocks meets the first-fit specification. -/
theorem nebulaBlockAlloc_first_fit_plainDisk : ∃ mount,
    nebulaMountDo (fun _ => zeroBlock) (plainDisk 65536 (by decide)) = .ok mount ∧
    ((∃ lba, (nebulaBlockAlloc .ok (plainDisk 65536 (by decide)) mount 5).1 = .ok lba) ↔
      ∃ start, start + 5 ≤ searchedBits mount ∧ FreeRun (bitGet mount.bitmap.l0Bits) 5 start) := by
  obtain ⟨layout, mount, -, mounts, exact, -, -⟩ := plainDisk_volume
  refine ⟨mount, mounts, ?_⟩
  have count := exact.bitmap.device_count exact.sound exact.capacity_lt
  have searched := exact.searchedBits_eq
  simp only at count searched
  refine (@nebulaBlockAlloc_first_fit .ok (plainDisk 65536 (by decide)) mount 5 (by decide)
    (by rw [searched, count]) fun start inside => ?_).1
  rw [searched] at inside
  exact congrArg Prod.fst (exact.flush_ok _ (by decide) inside)

/-- The bits that `nebula_block_free` reads or writes.  The check reads up to the first clear bit;
once it has passed, the pages from the first bit to the last are written back. -/
def FreeTouches (mount : NebulaMount) (lba n bit : Nat) : Prop :=
  n ≠ 0 ∧ (lba + n) % 2 ^ 64 ≤ mount.sb.deviceCapacityBlocks.toNat ∧
    ((∃ index < n, bit = (lba + index) % 2 ^ 64 ∧ ∀ earlier < index,
        bitGet mount.bitmap.l0Bits ((lba + earlier) % 2 ^ 64) = true) ∨
      (∀ index < n, bitGet mount.bitmap.l0Bits ((lba + index) % 2 ^ 64) = true) ∧
        lba / bitmapBitsPerPage ≤ bit / bitmapBitsPerPage ∧
          bit / bitmapBitsPerPage ≤ (lba + n - 1) % 2 ^ 64 / bitmapBitsPerPage)

/-- The range is one that may be freed: not empty, on the device, and allocated. -/
def Freeable (mount : NebulaMount) (lba n : Nat) : Prop :=
  0 < n ∧ lba + n ≤ mount.sb.deviceCapacityBlocks.toNat ∧
    ∀ bit, lba ≤ bit → bit < lba + n → bitGet mount.bitmap.l0Bits bit = true

/-- A free stays inside the loaded bitmap, succeeds exactly on a range that may be freed, clears
exactly that range, and changes nothing otherwise. -/
structure FreeExact (disk : Disk) (mount : NebulaMount) (lba n : Nat) : Prop where
  inside : ∀ bit, FreeTouches mount lba n bit → bit < mount.bitmap.numPages * bitmapBitsPerPage
  ok_iff : (flushDirtyPages .ok disk (mount.withBitmap (unmarkRun mount.bitmap lba n)) lba
      (lba + n - 1)).1 = .ok () →
    ((nebulaBlockFree .ok disk mount lba n).1 = .ok () ↔ Freeable mount lba n)
  cleared : (nebulaBlockFree .ok disk mount lba n).1 = .ok () → ∀ bit,
    bitGet (nebulaBlockFree .ok disk mount lba n).2.2.bitmap.l0Bits bit =
      (!decide (lba ≤ bit ∧ bit < lba + n) && bitGet mount.bitmap.l0Bits bit)
  refused : (nebulaBlockFree .ok disk mount lba n).1 ≠ .ok () →
    (nebulaBlockFree .ok disk mount lba n).2 = (disk, mount)

/-- The range test refuses the range, or the range lies in the loaded bitmap, or a clear bit of the
loaded bitmap stops the check. -/
def FreeCovered (mount : NebulaMount) (lba n : Nat) : Prop :=
  n = 0 ∨ mount.sb.deviceCapacityBlocks.toNat < (lba + n) % 2 ^ 64 ∨
    lba + n ≤ mount.bitmap.numPages * bitmapBitsPerPage ∨
      ∃ index < n, lba + index < mount.bitmap.numPages * bitmapBitsPerPage ∧
        bitGet mount.bitmap.l0Bits (lba + index) = false

section Free

variable {disk : Disk} {mount : NebulaMount} {lba n : Nat}

theorem Freeable.accepted (freeable : Freeable mount lba n) : FreeAccepted mount lba n := by
  obtain ⟨positive, inside, taken⟩ := freeable
  have device := mount.sb.deviceCapacityBlocks.toNat_lt
  refine ⟨positive.ne', ?_, fun index below => ?_⟩
  · rw [Nat.mod_eq_of_lt (by omega)]
    exact inside
  · rw [Nat.mod_eq_of_lt (by omega)]
    exact taken (lba + index) (by omega) (by omega)

theorem FreeAccepted.freeable (accepted : FreeAccepted mount lba n) (unwrapped : lba + n < 2 ^ 64) :
    Freeable mount lba n := by
  obtain ⟨positive, inside, taken⟩ := accepted.taken unwrapped
  refine ⟨positive, inside, fun bit low high => ?_⟩
  have set := taken (bit - lba) (by omega)
  rwa [Nat.add_sub_cancel' low] at set

/-- A refused free meets the specification, if what its check reads is loaded. -/
theorem FreeExact.of_refused (refused : ¬ FreeAccepted mount lba n)
    (inside : ∀ bit, FreeTouches mount lba n bit →
      bit < mount.bitmap.numPages * bitmapBitsPerPage) : FreeExact disk mount lba n := by
  obtain ⟨error, same⟩ := @nebulaBlockFree_refused .ok disk mount lba n refused
  have failed : (nebulaBlockFree .ok disk mount lba n).1 ≠ .ok () := by
    rw [same]
    exact fun done => by contradiction
  refine ⟨inside, fun _ => ⟨fun done => absurd done failed, fun freeable => ?_⟩,
    fun done => absurd done failed, fun _ => by rw [same]⟩
  exact absurd freeable.accepted refused

/-- An accepted free of a loaded range meets the specification. -/
theorem FreeExact.of_accepted (accepted : FreeAccepted mount lba n) (unwrapped : lba + n < 2 ^ 64)
    (loaded : lba + n ≤ mount.bitmap.numPages * bitmapBitsPerPage) :
    FreeExact disk mount lba n := by
  have freeable := accepted.freeable unwrapped
  have positive := freeable.1
  refine ⟨?_, fun written => ⟨fun _ => freeable, fun _ => ?_⟩, fun done bit => ?_, fun failed => ?_⟩
  · rintro bit ⟨-, -, ⟨index, below, rfl, -⟩ | ⟨-, -, last⟩⟩
    · rw [Nat.mod_eq_of_lt (by omega)]
      omega
    · rw [Nat.mod_eq_of_lt (by omega)] at last
      have page : (lba + n - 1) / bitmapBitsPerPage < mount.bitmap.numPages := by
        rw [Nat.div_lt_iff_lt_mul (by decide)]
        omega
      rw [← Nat.div_lt_iff_lt_mul (by decide)]
      omega
  · rw [nebulaBlockFree_accepted .ok disk accepted unwrapped]
    cases flushed : flushDirtyPages .ok disk (mount.withBitmap (unmarkRun mount.bitmap lba n)) lba
        (lba + n - 1) with
    | mk status after =>
        rw [flushed] at written
        simp only at written
        subst written
        rfl
  · have result := nebulaBlockFree_result .ok disk accepted unwrapped
    generalize nebulaBlockFree .ok disk mount lba n = ended at result done
    cases result with
    | ok => rw [NebulaMount.withBitmap_bitmap, unmarkRun_l0Bits, bitGet_clrRange]
    | error error part sub => contradiction
  · cases status : (nebulaBlockFree .ok disk mount lba n).1 with
    | ok done => exact absurd status failed
    | error error =>
        exact nebulaBlockFree_atomic (show IoOutcome.ok.Atomic from trivial) unwrapped status

/-- A free meets its specification exactly when its range test refuses it, or its check stays in the
loaded bitmap.  A buffer whose bits outnumber the 64-bit indices cannot have been loaded. -/
theorem freeExact_iff (loadable : mount.bitmap.numPages * bitmapBitsPerPage < 2 ^ 64) (lba : UInt64)
    (n : UInt32) :
    FreeExact disk mount lba.toNat n.toNat ↔ FreeCovered mount lba.toNat n.toNat := by
  constructor
  · intro exact
    by_contra uncovered
    simp only [FreeCovered, not_or, not_lt, not_le, not_exists, not_and, Bool.not_eq_false]
      at uncovered
    obtain ⟨some, passes, beyond, set⟩ := uncovered
    -- the first bit past the loaded ones is read, since all before it are set
    by_cases start : mount.bitmap.numPages * bitmapBitsPerPage ≤ lba.toNat
    · have outside := exact.inside lba.toNat ⟨some, passes, .inl ⟨0, by omega, ?_, by omega⟩⟩
      · omega
      · rw [Nat.add_zero, Nat.mod_eq_of_lt lba.toNat_lt]
    · have outside := exact.inside (mount.bitmap.numPages * bitmapBitsPerPage)
        ⟨some, passes, .inl ⟨mount.bitmap.numPages * bitmapBitsPerPage - lba.toNat, by omega, ?_,
          fun earlier before => ?_⟩⟩
      · omega
      · rw [Nat.add_sub_cancel' (by omega), Nat.mod_eq_of_lt (by omega)]
      · rw [Nat.mod_eq_of_lt (by omega)]
        exact set earlier (by omega) (by omega)
  · rintro (none | refused | loaded | ⟨index, below, loaded, clear⟩)
    · exact .of_refused (fun accepted => accepted.1 none) fun bit touched => absurd none touched.1
    · exact .of_refused (fun accepted => absurd accepted.2.1 (not_le.mpr refused))
        fun bit touched => absurd touched.2.1 (not_le.mpr refused)
    · by_cases accepted : FreeAccepted mount lba.toNat n.toNat
      · exact .of_accepted accepted (by omega) loaded
      · refine .of_refused accepted ?_
        rintro bit ⟨some, passes, ⟨index, below, rfl, -⟩ | ⟨all, -⟩⟩
        · rw [Nat.mod_eq_of_lt (by omega)]
          omega
        · exact absurd ⟨some, passes, all⟩ accepted
    · have cleared : bitGet mount.bitmap.l0Bits ((lba.toNat + index) % 2 ^ 64) = false := by
        rwa [Nat.mod_eq_of_lt (by omega)]
      refine .of_refused (fun accepted => ?_) ?_
      · have set := accepted.2.2 index below
        rw [cleared] at set
        contradiction
      · rintro bit ⟨-, -, ⟨read, -, rfl, set⟩ | ⟨all, -⟩⟩
        · have upTo : read ≤ index := by
            by_contra past
            have again := set index (not_le.mp past)
            rw [cleared] at again
            contradiction
          rw [Nat.mod_eq_of_lt (by omega)]
          omega
        · have set := all index below
          rw [cleared] at set
          contradiction

end Free

/-- Freeing the first block of a fresh device meets the specification. -/
theorem freeExact_iff_plainDisk : ∃ mount,
    nebulaMountDo (fun _ => zeroBlock) (plainDisk 65536 (by decide)) = .ok mount ∧
    FreeExact (plainDisk 65536 (by decide)) mount 0 1 := by
  obtain ⟨layout, mount, -, mounts, exact, total, -⟩ := plainDisk_volume
  have pages : mount.bitmap.numPages = layout.bitmapBlockCount := exact.bitmap.numPages
  have fits := exact.fits
  have covers := exact.sound.bitmap_covers
  have loadable : mount.bitmap.numPages * bitmapBitsPerPage < 2 ^ 64 := by
    rw [pages, bitmapBitsPerPage]
    omega
  refine ⟨mount, mounts, (@freeExact_iff (plainDisk 65536 (by decide)) mount loadable 0 1).mpr ?_⟩
  refine .inr (.inr (.inl ?_))
  rw [pages, show (0 : UInt64).toNat = 0 from rfl, show (1 : UInt32).toNat = 1 from rfl]
  simp only [bitmapBitsPerPage]
  omega

/-- A free of the last 64-bit block address passes the range test and reads outside the bitmap. -/
theorem free_reads_outside : ¬ ∀ (heap : Nat → Block) (disk : Disk) (mount : NebulaMount)
    (lba : UInt64) (n : UInt32), nebulaMountDo heap disk = .ok mount →
      FreeExact disk mount lba.toNat n.toNat := by
  intro claim
  obtain ⟨layout, mount, -, mounts, exact, -, -⟩ := plainDisk_volume
  have pages : mount.bitmap.numPages = layout.bitmapBlockCount := exact.bitmap.numPages
  have fits := exact.fits
  have outside := (claim _ _ mount 0xFFFFFFFFFFFFFFFF 1 mounts).inside 0xFFFFFFFFFFFFFFFF
    ⟨by decide, Nat.zero_le _, .inl ⟨0, by decide, by decide, by omega⟩⟩
  rw [pages] at outside
  simp only [bitmapBitsPerPage] at outside
  omega

end MiniFs
