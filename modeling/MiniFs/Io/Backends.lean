import Mathlib.Tactic.Ring
import MiniFs.Lib.Transfer
import MiniFs.Nebula.Io

/-!
# The two backends of the block interface

The POSIX backend moves a request as a byte stream, in as many system calls as their counts make
necessary.  The SPDK backend moves it in batches of at most 256 blocks through a bounce buffer, each
batch one NVMe command on the sectors of its blocks.  On one image both accept the same requests and
have the same effect.

The outcomes of the system calls and commands are listed in the order they are made; a call that
needs more of them than listed has not returned.
-/

namespace MiniFs

open MiniFs.Lib (copyRange copyRange_append copyRange_outside copyRange_repairs copyRange_through
  copyRange_zero)

/-- A buffer in memory. -/
abbrev Buffer := Nat → UInt8

/-- The bytes of a device. -/
structure Image where
  size : Nat
  byte : Nat → UInt8

/-- The checks at the head of the four calls; a null buffer is `none`. -/
def ioCheck (capacityBlocks : Nat) (buf : Option Buffer) (lba : UInt64) (nBlocks : UInt32) :
    Except Errno Buffer :=
  match buf with
  | none => .error .EINVAL
  | some buf =>
      if capacityBlocks < (lba + nBlocks.toUInt64).toNat then .error .ERANGE else .ok buf

/-! ## The POSIX backend -/

/-- `struct nebula_io_posix`. -/
structure NebulaIoPosix where
  capacityBlocks : Nat

/-- `nebula_io_open` on an existing file. -/
def nebulaIoOpen (image : Image) : Except Errno NebulaIoPosix :=
  if image.size < blockSize then .error .EINVAL else .ok ⟨image.size / blockSize⟩

/-- The errors of a system call. -/
inductive SysError
  | EINTR
  | other (error : Errno)

/-- How the system treats one `pread` or `pwrite`. -/
inductive SysOutcome
  /-- At most `count` bytes are moved. -/
  | moved (count : Nat)
  /-- The call fails, and leaves anything in the bytes it was asked to move. -/
  | failed (error : SysError) (left : Nat → UInt8)

/-- Some byte is moved. -/
def SysOutcome.Positive : SysOutcome → Prop
  | .moved count => 0 < count
  | .failed _ _ => False

/-- `pread` of `len` bytes at `off` to `dst + at_`.  A negative `off_t` is refused. -/
def pread (image : Image) (outcome : SysOutcome) (dst : Buffer) (at_ len off : Nat) :
    Except SysError Nat × Buffer :=
  if 2 ^ 63 ≤ off then (.error (.other .EINVAL), dst)
  else
    match outcome with
    | .moved count =>
        let r := min count (min len (image.size - off))
        (.ok r, copyRange dst image.byte at_ off r)
    | .failed error left => (.error error, copyRange dst left at_ at_ len)

/-- `pwrite` of `len` bytes of `src + start` at `off`. -/
def pwrite (image : Image) (outcome : SysOutcome) (src : Buffer) (start len off : Nat) :
    Except SysError Nat × Image :=
  if 2 ^ 63 ≤ off then (.error (.other .EINVAL), image)
  else
    match outcome with
    | .moved count =>
        let w := min count len
        (.ok w, ⟨if w = 0 then image.size else max image.size (off + w),
          copyRange image.byte src off start w⟩)
    | .failed error left =>
        (.error error, { image with byte := copyRange image.byte left off off len })

/-- The loop of `posix_read`. -/
def posixReadLoop (image : Image) (off total : Nat) (outcomes : List SysOutcome) (done : Nat)
    (dst : Buffer) : Option (Except Errno Unit × Buffer) :=
  if total ≤ done then some (.ok (), dst)
  else
    match outcomes with
    | [] => none
    | outcome :: rest =>
        match pread image outcome dst done (total - done) ((off + done) % 2 ^ 64) with
        | (.error .EINTR, dst) => posixReadLoop image off total rest done dst
        | (.error (.other error), dst) => some (.error error, dst)
        | (.ok 0, dst) => some (.error Errno.EIO, dst)
        | (.ok (r + 1), dst) => posixReadLoop image off total rest (done + (r + 1)) dst

/-- `posix_read`. -/
def posixRead (io : NebulaIoPosix) (image : Image) (outcomes : List SysOutcome) (lba : UInt64)
    (nBlocks : UInt32) (buf : Option Buffer) : Option (Except Errno Unit × Option Buffer) :=
  match ioCheck io.capacityBlocks buf lba nBlocks with
  | .error error => some (.error error, buf)
  | .ok buf =>
      (posixReadLoop image ((lba <<< 12).toNat) (nBlocks.toUInt64 * 4096).toNat outcomes 0 buf).map
        fun done => (done.1, some done.2)

/-- The loop of `posix_write`. -/
def posixWriteLoop (src : Buffer) (off total : Nat) (outcomes : List SysOutcome) (done : Nat)
    (image : Image) : Option (Except Errno Unit × Image) :=
  if total ≤ done then some (.ok (), image)
  else
    match outcomes with
    | [] => none
    | outcome :: rest =>
        match pwrite image outcome src done (total - done) ((off + done) % 2 ^ 64) with
        | (.error .EINTR, image) => posixWriteLoop src off total rest done image
        | (.error (.other error), image) => some (.error error, image)
        | (.ok 0, image) => some (.error Errno.EIO, image)
        | (.ok (w + 1), image) => posixWriteLoop src off total rest (done + (w + 1)) image

/-- `posix_write`. -/
def posixWrite (io : NebulaIoPosix) (image : Image) (outcomes : List SysOutcome) (lba : UInt64)
    (nBlocks : UInt32) (buf : Option Buffer) : Option (Except Errno Unit × Image) :=
  match ioCheck io.capacityBlocks buf lba nBlocks with
  | .error error => some (.error error, image)
  | .ok buf =>
      posixWriteLoop buf ((lba <<< 12).toNat) (nBlocks.toUInt64 * 4096).toNat outcomes 0 image

/-! ## The SPDK backend -/

/-- `struct nebula_spdk_ns`, with the sector count of its namespace. -/
structure NebulaSpdkNs where
  sectorSize : Nat
  numSectors : Nat
  sectorsPerBlock : Nat
  capacityBlocks : Nat

/-- `attach_cb` on an active namespace. -/
def attachCb (sectorSize numSectors : Nat) : Option NebulaSpdkNs :=
  if blockSize < sectorSize then none
  else some ⟨sectorSize, numSectors, blockSize / sectorSize, numSectors / (blockSize / sectorSize)⟩

/-- How the device treats one command. -/
inductive NvmeOutcome
  /-- All sectors are moved. -/
  | completed
  /-- The command fails, and leaves anything in the sectors it was asked to move. -/
  | failed (left : Nat → UInt8)

/-- `nebula_spdk_nvme_read`: whether it succeeds, and the buffer after it.  The device refuses
sectors it does not have. -/
def nebulaSpdkNvmeRead (ns : NebulaSpdkNs) (image : Image) (outcome : NvmeOutcome)
    (lba nBlocks : Nat) (buf : Buffer) : Bool × Buffer :=
  let nvmeLba := lba * ns.sectorsPerBlock % 2 ^ 64
  let nvmeBlocks := nBlocks * ns.sectorsPerBlock % 2 ^ 32
  if ns.numSectors < nvmeLba + nvmeBlocks then (false, buf)
  else
    match outcome with
    | .completed =>
        (true, copyRange buf image.byte 0 (nvmeLba * ns.sectorSize) (nvmeBlocks * ns.sectorSize))
    | .failed left => (false, copyRange buf left 0 0 (nvmeBlocks * ns.sectorSize))

/-- `nebula_spdk_nvme_write`. -/
def nebulaSpdkNvmeWrite (ns : NebulaSpdkNs) (image : Image) (outcome : NvmeOutcome)
    (lba nBlocks : Nat) (buf : Buffer) : Bool × Image :=
  let nvmeLba := lba * ns.sectorsPerBlock % 2 ^ 64
  let nvmeBlocks := nBlocks * ns.sectorsPerBlock % 2 ^ 32
  let off := nvmeLba * ns.sectorSize
  if ns.numSectors < nvmeLba + nvmeBlocks then (false, image)
  else
    match outcome with
    | .completed =>
        (true, { image with byte := copyRange image.byte buf off 0 (nvmeBlocks * ns.sectorSize) })
    | .failed left =>
        (false, { image with
          byte := copyRange image.byte left off off (nvmeBlocks * ns.sectorSize) })

/-- `SPDK_BOUNCE_BLOCKS`. -/
def spdkBounceBlocks : Nat := 256

/-- The blocks of the next command. -/
def spdkBatch (remaining : Nat) : Nat :=
  if remaining < spdkBounceBlocks then remaining else spdkBounceBlocks

/-- The loop of `spdk_io_read`. -/
def spdkIoReadLoop (ns : NebulaSpdkNs) (image : Image) (lba : Nat) (commands : List NvmeOutcome)
    (remaining done : Nat) (bounce buf : Buffer) : Option (Except Errno Unit × Buffer) :=
  if remaining = 0 then some (.ok (), buf)
  else
    match commands with
    | [] => none
    | command :: rest =>
        let batch := spdkBatch remaining
        match nebulaSpdkNvmeRead ns image command ((lba + done) % 2 ^ 64) batch bounce with
        | (false, _) => some (.error Errno.EIO, buf)
        | (true, bounce) =>
            spdkIoReadLoop ns image lba rest (remaining - batch) (done + batch) bounce
              (copyRange buf bounce (done * blockSize) 0 (batch * blockSize))

/-- `spdk_io_read`, with whatever the bounce buffer holds. -/
def spdkIoRead (ns : NebulaSpdkNs) (image : Image) (bounce : Buffer) (commands : List NvmeOutcome)
    (lba : UInt64) (nBlocks : UInt32) (buf : Option Buffer) :
    Option (Except Errno Unit × Option Buffer) :=
  match ioCheck ns.capacityBlocks buf lba nBlocks with
  | .error error => some (.error error, buf)
  | .ok buf =>
      (spdkIoReadLoop ns image lba.toNat commands nBlocks.toNat 0 bounce buf).map
        fun done => (done.1, some done.2)

/-- The loop of `spdk_io_write`. -/
def spdkIoWriteLoop (ns : NebulaSpdkNs) (buf : Buffer) (lba : Nat) (commands : List NvmeOutcome)
    (remaining done : Nat) (bounce : Buffer) (image : Image) : Option (Except Errno Unit × Image) :=
  if remaining = 0 then some (.ok (), image)
  else
    match commands with
    | [] => none
    | command :: rest =>
        let batch := spdkBatch remaining
        let bounce := copyRange bounce buf 0 (done * blockSize) (batch * blockSize)
        match nebulaSpdkNvmeWrite ns image command ((lba + done) % 2 ^ 64) batch bounce with
        | (false, image) => some (.error Errno.EIO, image)
        | (true, image) =>
            spdkIoWriteLoop ns buf lba rest (remaining - batch) (done + batch) bounce image

/-- `spdk_io_write`. -/
def spdkIoWrite (ns : NebulaSpdkNs) (image : Image) (bounce : Buffer) (commands : List NvmeOutcome)
    (lba : UInt64) (nBlocks : UInt32) (buf : Option Buffer) : Option (Except Errno Unit × Image) :=
  match ioCheck ns.capacityBlocks buf lba nBlocks with
  | .error error => some (.error error, image)
  | .ok buf => spdkIoWriteLoop ns buf lba.toNat commands nBlocks.toNat 0 bounce image

section Posix

variable {image image' : Image} {off total done : Nat} {outcomes : List SysOutcome}
  {src dst dst' : Buffer} {result : Except Errno Unit}

theorem pread_moved {count len : Nat} (inside : off + len ≤ image.size)
    (small : image.size < 2 ^ 63)
    (positive : 0 < len) : pread image (.moved count) dst done len off =
      (.ok (min count len), copyRange dst image.byte done off (min count len)) := by
  rw [pread, if_neg (by omega)]
  have clamp : min len (image.size - off) = len := by omega
  simp only [clamp]

theorem pread_failed {error : SysError} {left : Nat → UInt8} {len : Nat}
    (inside : off + len ≤ image.size) (small : image.size < 2 ^ 63) (positive : 0 < len) :
    pread image (.failed error left) dst done len off =
      (.error error, copyRange dst left done done len) := by
  rw [pread, if_neg (by omega)]

theorem pwrite_moved {count len : Nat} (inside : off + len ≤ image.size)
    (small : image.size < 2 ^ 63) (positive : 0 < len) :
    pwrite image (.moved count) src done len off =
      (.ok (min count len), ⟨image.size, copyRange image.byte src off done (min count len)⟩) := by
  rw [pwrite, if_neg (by omega)]
  have kept : (if min count len = 0 then image.size else max image.size (off + min count len)) =
      image.size := by
    split
    · rfl
    · omega
  simp only [kept]

theorem pwrite_failed {error : SysError} {left : Nat → UInt8} {len : Nat}
    (inside : off + len ≤ image.size) (small : image.size < 2 ^ 63) (positive : 0 < len) :
    pwrite image (.failed error left) src done len off =
      (.error error, ⟨image.size, copyRange image.byte left off off len⟩) := by
  rw [pwrite, if_neg (by omega)]

/-- A read that succeeds has filled the rest of the buffer from the image. -/
theorem posixReadLoop_ok (inside : off + total ≤ image.size) (small : image.size < 2 ^ 63)
    (started : done ≤ total)
    (returned : posixReadLoop image off total outcomes done dst = some (.ok (), dst')) :
    dst' = copyRange dst image.byte done (off + done) (total - done) := by
  induction outcomes generalizing done dst with
  | nil =>
      rw [posixReadLoop] at returned
      split at returned
      next full =>
        obtain rfl : dst = dst' := (Prod.mk.inj (Option.some.inj returned)).2
        rw [show total - done = 0 by omega, copyRange_zero]
      · cases returned
  | cons outcome rest ih =>
      rw [posixReadLoop] at returned
      split at returned
      next full =>
        obtain rfl : dst = dst' := (Prod.mk.inj (Option.some.inj returned)).2
        rw [show total - done = 0 by omega, copyRange_zero]
      next left =>
        rw [Nat.mod_eq_of_lt (show off + done < 2 ^ 64 by omega)] at returned
        cases outcome with
        | moved count =>
            rw [pread_moved (by omega) small (by omega)] at returned
            cases moved : min count (total - done) with
            | zero =>
                rw [moved] at returned
                cases returned
            | succ r =>
                rw [moved] at returned
                rw [ih (by omega) returned, ← Nat.add_assoc off, copyRange_append,
                  show r + 1 + (total - (done + (r + 1))) = total - done by omega]
        | failed error junk =>
            rw [pread_failed (by omega) small (by omega)] at returned
            cases error with
            | EINTR => rw [ih started returned, copyRange_repairs]
            | other error => cases returned

/-- A read whose system calls all move something returns. -/
theorem posixReadLoop_returns (inside : off + total ≤ image.size) (small : image.size < 2 ^ 63)
    (positive : ∀ outcome ∈ outcomes, outcome.Positive) (enough : total - done ≤ outcomes.length) :
    ∃ dst', posixReadLoop image off total outcomes done dst = some (.ok (), dst') := by
  induction outcomes generalizing done dst with
  | nil =>
      rw [List.length_nil] at enough
      exact ⟨dst, by rw [posixReadLoop, if_pos (by omega)]⟩
  | cons outcome rest ih =>
      rw [posixReadLoop]
      rw [List.length_cons] at enough
      split
      · exact ⟨dst, rfl⟩
      next left =>
        have first := positive outcome (List.mem_cons_self ..)
        rw [Nat.mod_eq_of_lt (show off + done < 2 ^ 64 by omega)]
        cases outcome with
        | failed error junk => exact first.elim
        | moved count =>
            have some : 0 < count := first
            rw [pread_moved (by omega) small (by omega)]
            cases moved : min count (total - done) with
            | zero => omega
            | succ r =>
                exact ih (fun other listed => positive other (List.mem_cons_of_mem _ listed))
                  (by omega)

/-- The bytes outside the request keep their values, whatever happens. -/
theorem posixWriteLoop_frame
    (returned : posixWriteLoop src off total outcomes done image = some (result, image'))
    (inside : off + total ≤ image.size) (small : image.size < 2 ^ 63) (started : done ≤ total) :
    image'.size = image.size ∧
      ∀ i, (i < off ∨ off + total ≤ i) → image'.byte i = image.byte i := by
  induction outcomes generalizing done image with
  | nil =>
      rw [posixWriteLoop] at returned
      split at returned
      · obtain rfl : image = image' := (Prod.mk.inj (Option.some.inj returned)).2
        exact ⟨rfl, fun i outside => rfl⟩
      · cases returned
  | cons outcome rest ih =>
      rw [posixWriteLoop] at returned
      split at returned
      · obtain rfl : image = image' := (Prod.mk.inj (Option.some.inj returned)).2
        exact ⟨rfl, fun i outside => rfl⟩
      next left =>
        rw [Nat.mod_eq_of_lt (show off + done < 2 ^ 64 by omega)] at returned
        have keeps {source : Nat → UInt8} {start len i : Nat} (short : len ≤ total - done)
            (outside : i < off ∨ off + total ≤ i) :
            copyRange image.byte source (off + done) start len i = image.byte i :=
          copyRange_outside (by omega)
        cases outcome with
        | moved count =>
            rw [pwrite_moved (by omega) small (by omega)] at returned
            cases moved : min count (total - done) with
            | zero =>
                rw [moved] at returned
                obtain rfl := (Prod.mk.inj (Option.some.inj returned)).2
                exact ⟨rfl, fun i outside => keeps (by omega) outside⟩
            | succ w =>
                rw [moved] at returned
                obtain ⟨size, frame⟩ := ih returned inside small (by omega)
                exact ⟨size, fun i outside => (frame i outside).trans (keeps (by omega) outside)⟩
        | failed error junk =>
            rw [pwrite_failed (by omega) small (by omega)] at returned
            cases error with
            | EINTR =>
                obtain ⟨size, frame⟩ := ih returned inside small started
                exact ⟨size, fun i outside => (frame i outside).trans (keeps le_rfl outside)⟩
            | other error =>
                obtain rfl := (Prod.mk.inj (Option.some.inj returned)).2
                exact ⟨rfl, fun i outside => keeps le_rfl outside⟩

theorem posixWriteLoop_ok
    (returned : posixWriteLoop src off total outcomes done image = some (.ok (), image'))
    (inside : off + total ≤ image.size) (small : image.size < 2 ^ 63) (started : done ≤ total) :
    image' = ⟨image.size, copyRange image.byte src (off + done) done (total - done)⟩ := by
  induction outcomes generalizing done image with
  | nil =>
      rw [posixWriteLoop] at returned
      split at returned
      next full =>
        obtain rfl : image = image' := (Prod.mk.inj (Option.some.inj returned)).2
        rw [show total - done = 0 by omega, copyRange_zero]
      · cases returned
  | cons outcome rest ih =>
      rw [posixWriteLoop] at returned
      split at returned
      next full =>
        obtain rfl : image = image' := (Prod.mk.inj (Option.some.inj returned)).2
        rw [show total - done = 0 by omega, copyRange_zero]
      next left =>
        rw [Nat.mod_eq_of_lt (show off + done < 2 ^ 64 by omega)] at returned
        cases outcome with
        | moved count =>
            rw [pwrite_moved (by omega) small (by omega)] at returned
            cases moved : min count (total - done) with
            | zero =>
                rw [moved] at returned
                cases returned
            | succ w =>
                rw [moved] at returned
                rw [ih returned inside small (by omega)]
                simp only [← Nat.add_assoc off done, copyRange_append]
                rw [show w + 1 + (total - (done + (w + 1))) = total - done by omega]
        | failed error junk =>
            rw [pwrite_failed (by omega) small (by omega)] at returned
            cases error with
            | EINTR =>
                rw [ih returned inside small started]
                simp only [copyRange_repairs]
            | other error => cases returned

theorem posixWriteLoop_returns (inside : off + total ≤ image.size) (small : image.size < 2 ^ 63)
    (positive : ∀ outcome ∈ outcomes, outcome.Positive) (enough : total - done ≤ outcomes.length) :
    ∃ image', posixWriteLoop src off total outcomes done image = some (.ok (), image') := by
  induction outcomes generalizing done image with
  | nil =>
      rw [List.length_nil] at enough
      exact ⟨image, by rw [posixWriteLoop, if_pos (by omega)]⟩
  | cons outcome rest ih =>
      rw [posixWriteLoop]
      rw [List.length_cons] at enough
      split
      · exact ⟨image, rfl⟩
      next left =>
        have first := positive outcome (List.mem_cons_self ..)
        rw [Nat.mod_eq_of_lt (show off + done < 2 ^ 64 by omega)]
        cases outcome with
        | failed error junk => exact first.elim
        | moved count =>
            have some : 0 < count := first
            rw [pwrite_moved (by omega) small (by omega)]
            cases moved : min count (total - done) with
            | zero => omega
            | succ w =>
                exact ih inside small
                  (fun other listed => positive other (List.mem_cons_of_mem _ listed)) (by omega)

end Posix

/-- A namespace that holds an image. -/
structure NebulaSpdkNs.Holds (ns : NebulaSpdkNs) (image : Image) : Prop where
  scale : ns.sectorsPerBlock * ns.sectorSize = blockSize
  fine : ns.sectorsPerBlock ≤ 8
  whole : ns.numSectors = image.size / ns.sectorSize
  capacity : ns.capacityBlocks = ns.numSectors / ns.sectorsPerBlock
  small : image.size < 2 ^ 63

theorem attachCb_holds {image : Image} {ns : NebulaSpdkNs} {sectorSize bits : Nat} (low : 9 ≤ bits)
    (high : bits ≤ 12) (sector : sectorSize = 2 ^ bits) (small : image.size < 2 ^ 63)
    (attached : attachCb sectorSize (image.size / sectorSize) = some ns) : ns.Holds image := by
  subst sector
  have divides : 2 ^ bits ∣ blockSize := Nat.pow_dvd_pow 2 high
  rw [attachCb, if_neg (not_lt.mpr (Nat.le_of_dvd (by decide) divides))] at attached
  obtain rfl := Option.some.inj attached
  refine ⟨Nat.div_mul_cancel divides, ?_, rfl, rfl, small⟩
  calc
    blockSize / 2 ^ bits ≤ blockSize / 2 ^ 9 :=
      Nat.div_le_div_left (Nat.pow_le_pow_right (by decide) low) (by decide)
    _ = 8 := by decide

section Spdk

variable {ns : NebulaSpdkNs} {image image' : Image} {lba nBlocks remaining done : Nat}
  {commands : List NvmeOutcome} {bounce buf buf' : Buffer} {result : Except Errno Unit}

namespace NebulaSpdkNs.Holds

theorem positive (holds : ns.Holds image) : 0 < ns.sectorsPerBlock ∧ 0 < ns.sectorSize := by
  have scale := holds.scale
  refine ⟨Nat.pos_of_ne_zero fun zero => ?_, Nat.pos_of_ne_zero fun zero => ?_⟩
  · rw [zero, Nat.zero_mul] at scale
    cases scale
  · rw [zero, Nat.mul_zero] at scale
    cases scale

theorem capacity_eq (holds : ns.Holds image) : ns.capacityBlocks = image.size / blockSize := by
  rw [holds.capacity, holds.whole, Nat.div_div_eq_div_mul, Nat.mul_comm, holds.scale]

/-- The sectors of a range of blocks of the image. -/
theorem range (holds : ns.Holds image) (inside : lba + nBlocks ≤ image.size / blockSize)
    (short : nBlocks ≤ spdkBounceBlocks) :
    lba * ns.sectorsPerBlock % 2 ^ 64 = lba * ns.sectorsPerBlock ∧
      nBlocks * ns.sectorsPerBlock % 2 ^ 32 = nBlocks * ns.sectorsPerBlock ∧
      lba * ns.sectorsPerBlock + nBlocks * ns.sectorsPerBlock ≤ ns.numSectors := by
  have total : (lba + nBlocks) * ns.sectorsPerBlock ≤ ns.numSectors := by
    rw [← holds.capacity_eq, holds.capacity] at inside
    exact (Nat.mul_le_mul_right _ inside).trans (Nat.div_mul_le_self _ _)
  have sectors : ns.numSectors ≤ image.size := by
    rw [holds.whole]
    exact Nat.div_le_self _ _
  have batch : nBlocks * ns.sectorsPerBlock ≤ 256 * 8 := Nat.mul_le_mul short holds.fine
  have small := holds.small
  rw [Nat.add_mul] at total
  exact ⟨Nat.mod_eq_of_lt (by omega), Nat.mod_eq_of_lt (by omega), total⟩

theorem blocks_lt (holds : ns.Holds image) : image.size / blockSize < 2 ^ 64 := by
  have small := holds.small
  have less := Nat.div_le_self image.size blockSize
  omega

theorem bytes (holds : ns.Holds image) (count : Nat) :
    count * ns.sectorsPerBlock * ns.sectorSize = count * blockSize := by
  rw [Nat.mul_assoc, holds.scale]

theorem nvmeRead (holds : ns.Holds image) (inside : lba + nBlocks ≤ image.size / blockSize)
    (short : nBlocks ≤ spdkBounceBlocks) : nebulaSpdkNvmeRead ns image .completed lba nBlocks buf =
      (true, copyRange buf image.byte 0 (lba * blockSize) (nBlocks * blockSize)) := by
  obtain ⟨start, count, range⟩ := holds.range inside short
  simp only [nebulaSpdkNvmeRead, start, count, if_neg (not_lt.mpr range), holds.bytes]

theorem nvmeRead_failed (holds : ns.Holds image) {left : Nat → UInt8}
    (inside : lba + nBlocks ≤ image.size / blockSize) (short : nBlocks ≤ spdkBounceBlocks) :
    nebulaSpdkNvmeRead ns image (.failed left) lba nBlocks buf =
      (false, copyRange buf left 0 0 (nBlocks * blockSize)) := by
  obtain ⟨start, count, range⟩ := holds.range inside short
  simp only [nebulaSpdkNvmeRead, start, count, if_neg (not_lt.mpr range), holds.bytes]

theorem nvmeWrite (holds : ns.Holds image) (inside : lba + nBlocks ≤ image.size / blockSize)
    (short : nBlocks ≤ spdkBounceBlocks) : nebulaSpdkNvmeWrite ns image .completed lba nBlocks buf =
      (true, ⟨image.size, copyRange image.byte buf (lba * blockSize) 0 (nBlocks * blockSize)⟩) := by
  obtain ⟨start, count, range⟩ := holds.range inside short
  simp only [nebulaSpdkNvmeWrite, start, count, if_neg (not_lt.mpr range), holds.bytes]

theorem nvmeWrite_failed (holds : ns.Holds image) {left : Nat → UInt8}
    (inside : lba + nBlocks ≤ image.size / blockSize) (short : nBlocks ≤ spdkBounceBlocks) :
    nebulaSpdkNvmeWrite ns image (.failed left) lba nBlocks buf =
      (false, ⟨image.size, copyRange image.byte left (lba * blockSize) (lba * blockSize)
        (nBlocks * blockSize)⟩) := by
  obtain ⟨start, count, range⟩ := holds.range inside short
  simp only [nebulaSpdkNvmeWrite, start, count, if_neg (not_lt.mpr range), holds.bytes]

theorem resized (holds : ns.Holds image) (size : image'.size = image.size) : ns.Holds image' :=
  ⟨holds.scale, holds.fine, by rw [size]; exact holds.whole, holds.capacity, by
    rw [size]; exact holds.small⟩

end NebulaSpdkNs.Holds

theorem spdkBatch_le (remaining : Nat) :
    spdkBatch remaining ≤ remaining ∧ spdkBatch remaining ≤ spdkBounceBlocks := by
  rw [spdkBatch]
  split <;> omega

theorem spdkBatch_pos (some : remaining ≠ 0) : 0 < spdkBatch remaining := by
  rw [spdkBatch]
  split
  · omega
  · decide

theorem spdkIoReadLoop_ok (holds : ns.Holds image)
    (inside : lba + (done + remaining) ≤ image.size / blockSize)
    (returned : spdkIoReadLoop ns image lba commands remaining done bounce buf =
      some (.ok (), buf')) :
    buf' = copyRange buf image.byte (done * blockSize) ((lba + done) * blockSize)
      (remaining * blockSize) := by
  have small := holds.blocks_lt
  induction commands generalizing remaining done bounce buf with
  | nil =>
      rw [spdkIoReadLoop] at returned
      split at returned
      next spent =>
        obtain rfl : buf = buf' := (Prod.mk.inj (Option.some.inj returned)).2
        rw [spent, Nat.zero_mul, copyRange_zero]
      · cases returned
  | cons command rest ih =>
      rw [spdkIoReadLoop] at returned
      split at returned
      next spent =>
        obtain rfl : buf = buf' := (Prod.mk.inj (Option.some.inj returned)).2
        rw [spent, Nat.zero_mul, copyRange_zero]
      next left =>
        obtain ⟨part, short⟩ := spdkBatch_le remaining
        rw [Nat.mod_eq_of_lt (show lba + done < 2 ^ 64 by omega)] at returned
        dsimp only at returned
        cases command with
        | failed junk =>
            rw [holds.nvmeRead_failed (by omega) short] at returned
            cases returned
        | completed =>
            rw [holds.nvmeRead (by omega) short] at returned
            rw [ih (by omega) returned, copyRange_through, Nat.add_mul done, ← Nat.add_assoc lba,
              Nat.add_mul (lba + done), copyRange_append, ← Nat.add_mul,
              show spdkBatch remaining + (remaining - spdkBatch remaining) = remaining by omega]

theorem spdkIoReadLoop_returns (holds : ns.Holds image)
    (inside : lba + (done + remaining) ≤ image.size / blockSize)
    (completed : ∀ command ∈ commands, command = NvmeOutcome.completed)
    (enough : remaining ≤ commands.length) :
    ∃ buf', spdkIoReadLoop ns image lba commands remaining done bounce buf =
      some (.ok (), buf') := by
  have small := holds.blocks_lt
  induction commands generalizing remaining done bounce buf with
  | nil => exact ⟨buf, by rw [spdkIoReadLoop, if_pos (Nat.le_zero.mp enough)]⟩
  | cons command rest ih =>
      rw [List.length_cons] at enough
      rw [spdkIoReadLoop]
      split
      · exact ⟨buf, rfl⟩
      next left =>
        obtain ⟨part, short⟩ := spdkBatch_le remaining
        have positive := spdkBatch_pos left
        rw [completed command (List.mem_cons_self ..),
          Nat.mod_eq_of_lt (show lba + done < 2 ^ 64 by omega)]
        dsimp only
        rw [holds.nvmeRead (by omega) short]
        exact ih (by omega) (fun other listed => completed other (List.mem_cons_of_mem _ listed))
          (by omega)

theorem spdkIoWriteLoop_frame
    (returned : spdkIoWriteLoop ns buf lba commands remaining done bounce image =
      some (result, image'))
    (holds : ns.Holds image) (inside : lba + (done + remaining) ≤ image.size / blockSize) :
    image'.size = image.size ∧
      ∀ i, (i < lba * blockSize ∨ (lba + (done + remaining)) * blockSize ≤ i) →
      image'.byte i = image.byte i := by
  have small := holds.blocks_lt
  induction commands generalizing remaining done bounce image with
  | nil =>
      rw [spdkIoWriteLoop] at returned
      split at returned
      · obtain rfl : image = image' := (Prod.mk.inj (Option.some.inj returned)).2
        exact ⟨rfl, fun i outside => rfl⟩
      · cases returned
  | cons command rest ih =>
      rw [spdkIoWriteLoop] at returned
      split at returned
      · obtain rfl : image = image' := (Prod.mk.inj (Option.some.inj returned)).2
        exact ⟨rfl, fun i outside => rfl⟩
      next left =>
        obtain ⟨part, short⟩ := spdkBatch_le remaining
        have keeps {source : Nat → UInt8} {start i : Nat}
            (outside : i < lba * blockSize ∨ (lba + (done + remaining)) * blockSize ≤ i) :
            copyRange image.byte source ((lba + done) * blockSize) start
              (spdkBatch remaining * blockSize) i = image.byte i := by
          have before : lba * blockSize ≤ (lba + done) * blockSize :=
            Nat.mul_le_mul_right _ (by omega)
          have after : (lba + done + spdkBatch remaining) * blockSize ≤
              (lba + (done + remaining)) * blockSize := Nat.mul_le_mul_right _ (by omega)
          rw [Nat.add_mul (lba + done)] at after
          exact copyRange_outside (outside.imp (lt_of_lt_of_le · before) after.trans)
        rw [Nat.mod_eq_of_lt (show lba + done < 2 ^ 64 by omega)] at returned
        dsimp only at returned
        cases command with
        | failed junk =>
            rw [holds.nvmeWrite_failed (by omega) short] at returned
            obtain rfl := (Prod.mk.inj (Option.some.inj returned)).2
            exact ⟨rfl, fun i outside => keeps outside⟩
        | completed =>
            rw [holds.nvmeWrite (by omega) short] at returned
            have joined : done + spdkBatch remaining + (remaining - spdkBatch remaining) =
                done + remaining := by omega
            obtain ⟨size, frame⟩ :=
              ih returned (holds.resized rfl) (by rw [joined]; exact inside) small
            rw [joined] at frame
            exact ⟨size, fun i outside => (frame i outside).trans (keeps outside)⟩

theorem spdkIoWriteLoop_ok
    (returned : spdkIoWriteLoop ns buf lba commands remaining done bounce image =
      some (.ok (), image'))
    (holds : ns.Holds image) (inside : lba + (done + remaining) ≤ image.size / blockSize) :
    image' = ⟨image.size, copyRange image.byte buf ((lba + done) * blockSize) (done * blockSize)
      (remaining * blockSize)⟩ := by
  have small := holds.blocks_lt
  induction commands generalizing remaining done bounce image with
  | nil =>
      rw [spdkIoWriteLoop] at returned
      split at returned
      next spent =>
        obtain rfl : image = image' := (Prod.mk.inj (Option.some.inj returned)).2
        rw [spent, Nat.zero_mul, copyRange_zero]
      · cases returned
  | cons command rest ih =>
      rw [spdkIoWriteLoop] at returned
      split at returned
      next spent =>
        obtain rfl : image = image' := (Prod.mk.inj (Option.some.inj returned)).2
        rw [spent, Nat.zero_mul, copyRange_zero]
      next left =>
        obtain ⟨part, short⟩ := spdkBatch_le remaining
        rw [Nat.mod_eq_of_lt (show lba + done < 2 ^ 64 by omega)] at returned
        dsimp only at returned
        cases command with
        | failed junk =>
            rw [holds.nvmeWrite_failed (by omega) short] at returned
            cases returned
        | completed =>
            rw [holds.nvmeWrite (by omega) short] at returned
            rw [ih returned (holds.resized rfl) (by simp only; omega) small]
            simp only [copyRange_through, ← Nat.add_assoc lba done,
              Nat.add_mul _ (spdkBatch remaining), copyRange_append]
            rw [← Nat.add_mul,
              show spdkBatch remaining + (remaining - spdkBatch remaining) = remaining by omega]

theorem spdkIoWriteLoop_returns (holds : ns.Holds image)
    (inside : lba + (done + remaining) ≤ image.size / blockSize)
    (completed : ∀ command ∈ commands, command = NvmeOutcome.completed)
    (enough : remaining ≤ commands.length) :
    ∃ image', spdkIoWriteLoop ns buf lba commands remaining done bounce image =
      some (.ok (), image') := by
  have small := holds.blocks_lt
  induction commands generalizing remaining done bounce image with
  | nil => exact ⟨image, by rw [spdkIoWriteLoop, if_pos (Nat.le_zero.mp enough)]⟩
  | cons command rest ih =>
      rw [List.length_cons] at enough
      rw [spdkIoWriteLoop]
      split
      · exact ⟨image, rfl⟩
      next left =>
        obtain ⟨part, short⟩ := spdkBatch_le remaining
        have positive := spdkBatch_pos left
        rw [completed command (List.mem_cons_self ..),
          Nat.mod_eq_of_lt (show lba + done < 2 ^ 64 by omega)]
        dsimp only
        rw [holds.nvmeWrite (by omega) short]
        exact ih (holds.resized rfl) (by simp only; omega)
          (fun other listed => completed other (List.mem_cons_of_mem _ listed)) (by omega) small

end Spdk

/-! ## The backends side by side -/

/-- Two images that differ at most in the blocks from `lba` to `lba + nBlocks`. -/
def Image.SameOutside (image image' : Image) (lba nBlocks : Nat) : Prop :=
  image'.size = image.size ∧
    ∀ i, (i / blockSize < lba ∨ lba + nBlocks ≤ i / blockSize) → image'.byte i = image.byte i

/-- Two handles on an image serve a request in the same way. -/
structure Interchangeable (posix : NebulaIoPosix) (ns : NebulaSpdkNs) (image : Image) (lba : UInt64)
    (nBlocks : UInt32) : Prop where
  accepts : ∀ buf, ioCheck posix.capacityBlocks buf lba nBlocks =
    ioCheck ns.capacityBlocks buf lba nBlocks
  readServed : ∀ buf bounce outcomes commands, (∀ outcome ∈ outcomes, outcome.Positive) →
    nBlocks.toNat * blockSize ≤ outcomes.length →
    (∀ command ∈ commands, command = NvmeOutcome.completed) → nBlocks.toNat ≤ commands.length →
    (posixRead posix image outcomes lba nBlocks buf).isSome ∧
      posixRead posix image outcomes lba nBlocks buf =
        spdkIoRead ns image bounce commands lba nBlocks buf
  reads : ∀ buf bounce outcomes commands filled filled',
    posixRead posix image outcomes lba nBlocks buf = some (.ok (), filled) →
    spdkIoRead ns image bounce commands lba nBlocks buf = some (.ok (), filled') → filled = filled'
  writeServed : ∀ buf bounce outcomes commands, (∀ outcome ∈ outcomes, outcome.Positive) →
    nBlocks.toNat * blockSize ≤ outcomes.length →
    (∀ command ∈ commands, command = NvmeOutcome.completed) → nBlocks.toNat ≤ commands.length →
    (posixWrite posix image outcomes lba nBlocks buf).isSome ∧
      posixWrite posix image outcomes lba nBlocks buf =
        spdkIoWrite ns image bounce commands lba nBlocks buf
  writes : ∀ buf bounce outcomes commands image' image'',
    posixWrite posix image outcomes lba nBlocks buf = some (.ok (), image') →
    spdkIoWrite ns image bounce commands lba nBlocks buf = some (.ok (), image'') → image' = image''
  posixContained : ∀ buf outcomes result image',
    posixWrite posix image outcomes lba nBlocks buf = some (result, image') →
    image.SameOutside image' lba.toNat nBlocks.toNat
  spdkContained : ∀ buf bounce commands result image',
    spdkIoWrite ns image bounce commands lba nBlocks buf = some (result, image') →
    image.SameOutside image' lba.toNat nBlocks.toNat

section Request

variable {image image' : Image} {posix : NebulaIoPosix} {ns : NebulaSpdkNs} {lba : UInt64}
  {nBlocks : UInt32} {buf filled : Option Buffer} {given bounce : Buffer} {capacityBlocks : Nat}
  {outcomes : List SysOutcome} {commands : List NvmeOutcome} {result : Except Errno Unit}

/-- A request that passes the checks lies on the device. -/
theorem ioCheck_ok (nowrap : lba.toNat + nBlocks.toNat < 2 ^ 64)
    (accepted : ioCheck capacityBlocks buf lba nBlocks = .ok given) :
    lba.toNat + nBlocks.toNat ≤ capacityBlocks := by
  cases buf with
  | none => cases accepted
  | some buf =>
      simp only [ioCheck] at accepted
      split at accepted
      · cases accepted
      next inside =>
        rw [UInt64.toNat_add, UInt32.toNat_toUInt64, Nat.mod_eq_of_lt nowrap] at inside
        omega

theorem request_off (small : image.size < 2 ^ 63)
    (inside : lba.toNat + nBlocks.toNat ≤ image.size / blockSize) :
    (lba <<< 12).toNat = lba.toNat * blockSize := by
  rw [UInt64.toNat_shiftLeft, show (12 : UInt64).toNat % 64 = 12 from rfl, Nat.shiftLeft_eq]
  refine Nat.mod_eq_of_lt ?_
  calc
    lba.toNat * blockSize ≤ image.size / blockSize * blockSize := Nat.mul_le_mul_right _ (by omega)
    _ ≤ image.size := Nat.div_mul_le_self _ _
    _ < 2 ^ 64 := by omega

theorem request_total : (nBlocks.toUInt64 * 4096).toNat = nBlocks.toNat * blockSize := by
  have bound := nBlocks.toNat_lt
  rw [UInt64.toNat_mul, UInt32.toNat_toUInt64]
  refine Nat.mod_eq_of_lt ?_
  rw [show (4096 : UInt64).toNat = 4096 from rfl]
  omega

theorem request_inside (inside : lba.toNat + nBlocks.toNat ≤ image.size / blockSize) :
    lba.toNat * blockSize + nBlocks.toNat * blockSize ≤ image.size := by
  rw [← Nat.add_mul]
  exact (Nat.mul_le_mul_right _ inside).trans (Nat.div_mul_le_self _ _)

/-- Bytes outside the request are bytes of other blocks. -/
theorem sameOutside_of_frame (size : image'.size = image.size)
    (frame : ∀ i, (i < lba.toNat * blockSize ∨
      (lba.toNat + nBlocks.toNat) * blockSize ≤ i) → image'.byte i = image.byte i) :
    image.SameOutside image' lba.toNat nBlocks.toNat := by
  refine ⟨size, fun i outside => frame i ?_⟩
  exact outside.imp (Nat.div_lt_iff_lt_mul (by decide)).mp (Nat.le_div_iff_mul_le (by decide)).mp

/-- The buffer after a read of the request. -/
def requestRead (image : Image) (given : Buffer) (lba nBlocks : Nat) : Buffer :=
  copyRange given image.byte 0 (lba * blockSize) (nBlocks * blockSize)

/-- The image after a write of the request. -/
def requestWritten (image : Image) (given : Buffer) (lba nBlocks : Nat) : Image :=
  ⟨image.size, copyRange image.byte given (lba * blockSize) 0 (nBlocks * blockSize)⟩

section PosixRequest

variable (small : image.size < 2 ^ 63) (inside : lba.toNat + nBlocks.toNat ≤ image.size / blockSize)
  (accepted : ioCheck posix.capacityBlocks buf lba nBlocks = .ok given)

include small inside accepted

theorem posixRead_eq : posixRead posix image outcomes lba nBlocks buf =
    (posixReadLoop image (lba.toNat * blockSize) (nBlocks.toNat * blockSize) outcomes 0 given).map
      fun done => (done.1, some done.2) := by
  rw [posixRead, accepted]
  simp only [request_off small inside, request_total]

theorem posixRead_ok
    (returned : posixRead posix image outcomes lba nBlocks buf = some (.ok (), filled)) :
    filled = some (requestRead image given lba.toNat nBlocks.toNat) := by
  rw [posixRead_eq small inside accepted, Option.map_eq_some_iff] at returned
  obtain ⟨⟨result, dst⟩, loop, same⟩ := returned
  obtain ⟨rfl, rfl⟩ := Prod.mk.inj same
  rw [posixReadLoop_ok (request_inside inside) small (Nat.zero_le _) loop, Nat.add_zero,
    Nat.sub_zero, requestRead]

theorem posixRead_returns (positive : ∀ outcome ∈ outcomes, outcome.Positive)
    (enough : nBlocks.toNat * blockSize ≤ outcomes.length) :
    posixRead posix image outcomes lba nBlocks buf =
      some (.ok (), some (requestRead image given lba.toNat nBlocks.toNat)) := by
  obtain ⟨dst, loop⟩ := @posixReadLoop_returns image (lba.toNat * blockSize)
    (nBlocks.toNat * blockSize) 0 outcomes given (request_inside inside) small positive enough
  have returned : posixRead posix image outcomes lba nBlocks buf = some (.ok (), some dst) := by
    rw [posixRead_eq small inside accepted, loop, Option.map_some]
  rw [returned, posixRead_ok small inside accepted returned]

theorem posixWrite_eq : posixWrite posix image outcomes lba nBlocks buf =
    posixWriteLoop given (lba.toNat * blockSize) (nBlocks.toNat * blockSize) outcomes 0 image := by
  rw [posixWrite, accepted]
  simp only [request_off small inside, request_total]

theorem posixWrite_ok
    (returned : posixWrite posix image outcomes lba nBlocks buf = some (.ok (), image')) :
    image' = requestWritten image given lba.toNat nBlocks.toNat := by
  rw [posixWrite_eq small inside accepted] at returned
  rw [posixWriteLoop_ok returned (request_inside inside) small (Nat.zero_le _), Nat.add_zero,
    Nat.sub_zero, requestWritten]

theorem posixWrite_returns (positive : ∀ outcome ∈ outcomes, outcome.Positive)
    (enough : nBlocks.toNat * blockSize ≤ outcomes.length) :
    posixWrite posix image outcomes lba nBlocks buf =
      some (.ok (), requestWritten image given lba.toNat nBlocks.toNat) := by
  obtain ⟨image', loop⟩ := @posixWriteLoop_returns image (lba.toNat * blockSize)
    (nBlocks.toNat * blockSize) 0 outcomes given (request_inside inside) small positive enough
  rw [← posixWrite_eq small inside accepted] at loop
  rw [loop, posixWrite_ok small inside accepted loop]

theorem posixWrite_frame
    (returned : posixWrite posix image outcomes lba nBlocks buf = some (result, image')) :
    image.SameOutside image' lba.toNat nBlocks.toNat := by
  rw [posixWrite_eq small inside accepted] at returned
  obtain ⟨size, frame⟩ :=
    posixWriteLoop_frame returned (request_inside inside) small (Nat.zero_le _)
  rw [← Nat.add_mul] at frame
  exact sameOutside_of_frame size frame

end PosixRequest

section SpdkRequest

variable (holds : ns.Holds image) (inside : lba.toNat + nBlocks.toNat ≤ image.size / blockSize)
  (accepted : ioCheck ns.capacityBlocks buf lba nBlocks = .ok given)

include holds inside accepted

theorem spdkIoRead_ok
    (returned : spdkIoRead ns image bounce commands lba nBlocks buf = some (.ok (), filled)) :
    filled = some (requestRead image given lba.toNat nBlocks.toNat) := by
  rw [spdkIoRead, accepted] at returned
  obtain ⟨⟨result, dst⟩, loop, same⟩ := Option.map_eq_some_iff.mp returned
  obtain ⟨rfl, rfl⟩ := Prod.mk.inj same
  rw [spdkIoReadLoop_ok holds (by rw [Nat.zero_add]; exact inside) loop, Nat.zero_mul, Nat.add_zero,
    requestRead]

theorem spdkIoRead_returns (completed : ∀ command ∈ commands, command = NvmeOutcome.completed)
    (enough : nBlocks.toNat ≤ commands.length) :
    spdkIoRead ns image bounce commands lba nBlocks buf =
      some (.ok (), some (requestRead image given lba.toNat nBlocks.toNat)) := by
  obtain ⟨dst, loop⟩ := @spdkIoReadLoop_returns ns image lba.toNat nBlocks.toNat 0 commands bounce
    given holds (by rw [Nat.zero_add]; exact inside) completed enough
  have returned :
    spdkIoRead ns image bounce commands lba nBlocks buf = some (.ok (), some dst) := by
    rw [spdkIoRead, accepted]
    simp only [loop, Option.map_some]
  rw [returned, spdkIoRead_ok holds inside accepted returned]

omit holds inside in
theorem spdkIoWrite_eq : spdkIoWrite ns image bounce commands lba nBlocks buf =
    spdkIoWriteLoop ns given lba.toNat commands nBlocks.toNat 0 bounce image := by
  rw [spdkIoWrite, accepted]

theorem spdkIoWrite_ok
    (returned : spdkIoWrite ns image bounce commands lba nBlocks buf = some (.ok (), image')) :
    image' = requestWritten image given lba.toNat nBlocks.toNat := by
  rw [spdkIoWrite_eq accepted] at returned
  rw [spdkIoWriteLoop_ok returned holds (by rw [Nat.zero_add]; exact inside), Nat.zero_mul,
    Nat.add_zero, requestWritten]

theorem spdkIoWrite_returns (completed : ∀ command ∈ commands, command = NvmeOutcome.completed)
    (enough : nBlocks.toNat ≤ commands.length) :
    spdkIoWrite ns image bounce commands lba nBlocks buf =
      some (.ok (), requestWritten image given lba.toNat nBlocks.toNat) := by
  obtain ⟨image', loop⟩ := @spdkIoWriteLoop_returns ns image lba.toNat nBlocks.toNat 0 commands
    bounce given holds (by rw [Nat.zero_add]; exact inside) completed enough
  rw [← spdkIoWrite_eq accepted] at loop
  rw [loop, spdkIoWrite_ok holds inside accepted loop]

theorem spdkIoWrite_frame
    (returned : spdkIoWrite ns image bounce commands lba nBlocks buf = some (result, image')) :
    image.SameOutside image' lba.toNat nBlocks.toNat := by
  rw [spdkIoWrite_eq accepted] at returned
  obtain ⟨size, frame⟩ := spdkIoWriteLoop_frame returned holds (by rw [Nat.zero_add]; exact inside)
  rw [Nat.zero_add] at frame
  exact sameOutside_of_frame size frame

end SpdkRequest

end Request

theorem nebulaIoOpen_capacity {image : Image} {posix : NebulaIoPosix}
    (opened : nebulaIoOpen image = .ok posix) : posix.capacityBlocks = image.size / blockSize := by
  rw [nebulaIoOpen] at opened
  split at opened
  · cases opened
  · rw [← Except.ok.inj opened]

theorem Image.sameOutside_refl (image : Image) (lba nBlocks : Nat) :
    image.SameOutside image lba nBlocks := ⟨rfl, fun _ _ => rfl⟩

/-- On every image below `2 ^ 63` bytes and every sector size from 512 to 4096, the two backends
accept the same requests and serve them alike, however the system calls split them; what fails stays
inside the blocks asked for. -/
theorem backends_interchangeable {image : Image} {posix : NebulaIoPosix} {ns : NebulaSpdkNs}
    {sectorSize bits : Nat} (small : image.size < 2 ^ 63) (opened : nebulaIoOpen image = .ok posix)
    (low : 9 ≤ bits) (high : bits ≤ 12) (sector : sectorSize = 2 ^ bits)
    (attached : attachCb sectorSize (image.size / sectorSize) = some ns) {lba : UInt64}
    {nBlocks : UInt32} (nowrap : lba.toNat + nBlocks.toNat < 2 ^ 64) :
    Interchangeable posix ns image lba nBlocks := by
  have holds := attachCb_holds low high sector small attached
  have capacity := nebulaIoOpen_capacity opened
  have accepts (buf : Option Buffer) : ioCheck posix.capacityBlocks buf lba nBlocks =
      ioCheck ns.capacityBlocks buf lba nBlocks := by rw [capacity, holds.capacity_eq]
  have inside {buf : Option Buffer} {given : Buffer}
      (accepted : ioCheck posix.capacityBlocks buf lba nBlocks = .ok given) :
      lba.toNat + nBlocks.toNat ≤ image.size / blockSize := capacity ▸ ioCheck_ok nowrap accepted
  refine ⟨accepts, ?_, ?_, ?_, ?_, ?_, ?_⟩
  · intro buf bounce outcomes commands positive enough completed enough'
    cases checked : ioCheck posix.capacityBlocks buf lba nBlocks with
    | error error =>
        rw [posixRead, spdkIoRead, ← accepts, checked]
        exact ⟨rfl, rfl⟩
    | ok given =>
        rw [posixRead_returns small (inside checked) checked positive enough,
          spdkIoRead_returns holds (inside checked) (accepts buf ▸ checked) completed enough']
        exact ⟨rfl, rfl⟩
  · intro buf bounce outcomes commands filled filled' returned returned'
    cases checked : ioCheck posix.capacityBlocks buf lba nBlocks with
    | error error =>
        rw [posixRead, checked] at returned
        cases returned
    | ok given =>
        rw [posixRead_ok small (inside checked) checked returned,
          spdkIoRead_ok holds (inside checked) (accepts buf ▸ checked) returned']
  · intro buf bounce outcomes commands positive enough completed enough'
    cases checked : ioCheck posix.capacityBlocks buf lba nBlocks with
    | error error =>
        rw [posixWrite, spdkIoWrite, ← accepts, checked]
        exact ⟨rfl, rfl⟩
    | ok given =>
        rw [posixWrite_returns small (inside checked) checked positive enough,
          spdkIoWrite_returns holds (inside checked) (accepts buf ▸ checked) completed enough']
        exact ⟨rfl, rfl⟩
  · intro buf bounce outcomes commands image' image'' returned returned'
    cases checked : ioCheck posix.capacityBlocks buf lba nBlocks with
    | error error =>
        rw [posixWrite, checked] at returned
        cases returned
    | ok given =>
        rw [posixWrite_ok small (inside checked) checked returned,
          spdkIoWrite_ok holds (inside checked) (accepts buf ▸ checked) returned']
  · intro buf outcomes result image' returned
    cases checked : ioCheck posix.capacityBlocks buf lba nBlocks with
    | error error =>
        rw [posixWrite, checked] at returned
        obtain rfl : image = image' := (Prod.mk.inj (Option.some.inj returned)).2
        exact image.sameOutside_refl _ _
    | ok given => exact posixWrite_frame small (inside checked) checked returned
  · intro buf bounce commands result image' returned
    cases checked : ioCheck posix.capacityBlocks buf lba nBlocks with
    | error error =>
        rw [spdkIoWrite, ← accepts, checked] at returned
        obtain rfl : image = image' := (Prod.mk.inj (Option.some.inj returned)).2
        exact image.sameOutside_refl _ _
    | ok given =>
        exact spdkIoWrite_frame holds (inside checked) (accepts buf ▸ checked) returned

theorem backends_interchangeable_two : ∃ posix ns,
    nebulaIoOpen ⟨8192, fun i => UInt8.ofNat i⟩ = .ok posix ∧ attachCb 512 (8192 / 512) = some ns ∧
      Interchangeable posix ns ⟨8192, fun i => UInt8.ofNat i⟩ 1 1 :=
  ⟨⟨2⟩, ⟨512, 16, 8, 2⟩, rfl, rfl, @backends_interchangeable ⟨8192, fun i => UInt8.ofNat i⟩ ⟨2⟩
    ⟨512, 16, 8, 2⟩ 512 9 (by decide) rfl (by decide) (by decide) rfl rfl 1 1 (by decide)⟩

end MiniFs
