import MiniFs.Fs.AllocSize
import MiniFs.Fs.Windows

/-!
# Logical bytes and 64-bit offsets

What a write does to the bytes of its file, over all 64-bit offsets.  The positions of a request are
summed in 64 bits: a write past the last position comes back to the first block, and a read whose
end wraps is not clamped.
-/

namespace MiniFs

open Fs

/-- The byte a reader finds at a position; past the size there is nothing but zeros. -/
def NebulaInode.logicalByte (inode : NebulaInode) (disk : Disk) (pos : Nat) : UInt8 :=
  if pos < inode.sizeBytes.toNat then inode.byteAt disk pos else 0

/-- The size after a write that gets `n` of `len` bytes done. -/
def plannedSize (inode : NebulaInode) (offset len n : Nat) : Nat :=
  if n = len then max inode.sizeBytes.toNat (offset + len) else inode.sizeBytes.toNat

/-- What a write with room for the bytes of its plan does, below the last 64-bit position. -/
structure WriteLeaves (state : FsState) (file : NebulaFile) (offset len : Nat)
    (plan : Nat × NebulaInode) (result : Except Errno Nat) (file' : NebulaFile) (state' : FsState) :
    Prop where
  size : file'.inode.sizeBytes.toNat = plannedSize file.inode offset len plan.1
  mapped : ∀ blk, file'.inode.blockOf blk = plan.2.blockOf blk
  extends_ : ∀ blk lba, file.inode.blockOf blk = some lba → plan.2.blockOf blk = some lba
  kept : ∀ pos lba, plan.2.blockOf (pos / 4096) = some lba →
    ¬ (offset ≤ pos ∧ pos < offset + plan.1) →
    state'.disk.content lba (Fin.ofNat 4096 pos) = state.disk.content lba (Fin.ofNat 4096 pos)
  count : ∀ n, 0 < n → (result = .ok n ↔ n = plan.1)

section Leaves

variable {uuid : Bytes 16} {layout : NebulaLayout} {state : FsState} {file : NebulaFile}

theorem shortCount_eq_ok {done n : Nat} (positive : 0 < n) (error : Errno) :
    shortCount done error = .ok n ↔ n = done := by
  rw [shortCount]
  split_ifs with some
  · rw [Except.ok.injEq, eq_comm]
  · simp only [false_iff]
    omega

theorem NebulaInode.written_blockOf (inode : NebulaInode) (reach now : UInt64) (blk : Nat) :
    (inode.written reach now).blockOf blk = inode.blockOf blk := by
  rw [blockOf, blockOf, extentFind, extentFind, written_extents]

theorem NebulaInode.written_size (inode : NebulaInode) (reach now : UInt64) :
    (inode.written reach now).sizeBytes.toNat = max inode.sizeBytes.toNat reach.toNat := by
  by_cases past : inode.sizeBytes < reach
  · rw [written_sizeBytes past]
    rw [UInt64.lt_iff_toNat_lt] at past
    omega
  · have same : (inode.written reach now).sizeBytes = inode.sizeBytes := by
      simp only [NebulaInode.written, NebulaInode.seal, NebulaInode.grow, if_neg past]
    rw [same]
    rw [UInt64.lt_iff_toNat_lt] at past
    omega

/-- The table of inodes is apart from the data. -/
theorem content_inodeWrite (sound : layout.Sound) {lba number : Nat} (inData : InData layout lba)
    (inside : number < layout.inodePageBlockCount) (disk : Disk) (inode : NebulaInode) :
    (disk.push [inodeWrite layout number inode]).content lba = disk.content lba := by
  rw [content_push_of_ne]
  have dir := sound.dir_eq
  have data := sound.dataStart_eq
  have low := inData.1
  simp only [List.mem_singleton, inodeWrite, forall_eq]
  omega

/-- The bytes outside the part of a write that is done stay on the device. -/
theorem Filled.kept_byte {before after : FsState} {offset written pos lba : Nat} {data : List UInt8}
    {inode : NebulaInode} (filled : Filled layout before offset data written after inode)
    (mapped : inode.Mapped) (outside : ¬ InBitmap layout lba)
    (here : inode.blockOf (pos / 4096) = some lba)
    (away : ¬ (offset ≤ pos ∧ pos < offset + written)) :
    after.disk.content lba (Fin.ofNat 4096 pos) = before.disk.content lba (Fin.ofNat 4096 pos) := by
  refine filled.kept lba outside _ fun blk found inside => away ?_
  have same := mapped.blockOf_inj found here
  rw [Filled.fin_ofNat_val, same] at inside
  omega

/-- A write below the last 64-bit position follows its plan. -/
theorem fileWrite_leaves (solid : state.Solid uuid layout) (backs : state.Backs layout file.inode)
    (inside : file.inode.inodeNum.toNat < layout.inodePageBlockCount)
    (writable : file.flags &&& openWriteOnly ≠ 0) (offset : UInt64) {data : List UInt8}
    (some : data ≠ []) (now : UInt64)
    (unwrapped : offset.toNat + (writePlan layout.capacityBlocks data.length state.taken file.inode
      offset.toNat data.length).1 < 2 ^ 64) :
    ∃ result file' state', (nebulaFileWrite file offset data now).run state =
        (.ok (result, file'), state') ∧
      WriteLeaves state file offset.toNat data.length (writePlan layout.capacityBlocks data.length
        state.taken file.inode offset.toNat data.length) result file' state' := by
  obtain ⟨stop, n, next, middle, ends, -, -, follows, ran⟩ :=
    fileWrite_spec solid backs inside writable offset some now
  generalize writePlan layout.capacityBlocks data.length state.taken file.inode offset.toNat
    data.length = plan at *
  have exact : offset.toNat + n < 2 ^ 64 ∧ (n, next.inode) = plan := by
    rcases follows with ⟨low, same⟩ | ⟨-, wrapped⟩
    · exact ⟨low, same⟩
    · omega
  obtain ⟨low, rfl⟩ := exact
  have filled := ends.filled low
  have sound := ends.grown.solid.sound
  have inData {blk lba : Nat} (found : next.inode.blockOf blk = Option.some lba) :
    InData layout lba :=
    ends.grown.inData lba (ends.grown.mapped.holds_of_blockOf found)
  have size : next.inode.sizeBytes = file.inode.sizeBytes := by rw [ends.grown.rest]
  rcases ran with ⟨short, error, ran⟩ | ⟨full, ran⟩
  · refine ⟨_, _, _, ran, ?_, fun blk => rfl, ends.grown.blockOf, fun pos lba found away => ?_,
      fun m positive => shortCount_eq_ok positive error⟩
    · rw [size, plannedSize, if_neg (by simp only; omega)]
    · exact filled.kept_byte ends.grown.mapped (not_inBitmap_of_inData sound (inData found)) found
        away
  · refine ⟨_, _, _, ran, ?_, fun blk => next.inode.written_blockOf _ _ blk, ends.grown.blockOf,
      fun pos lba found away => ?_, fun m positive => by rw [Except.ok.injEq, eq_comm]⟩
    · rw [NebulaInode.written_size, size, plannedSize, if_pos full, UInt64.toNat_add,
        UInt64.toNat_ofNat', Nat.mod_eq_of_lt (show n < 2 ^ 64 by omega), Nat.mod_eq_of_lt low,
        full]
    · rw [FsState.disk_withDisk, content_inodeWrite sound (inData found) inside]
      exact filled.kept_byte ends.grown.mapped (not_inBitmap_of_inData sound (inData found)) found
        away

/-- A write changes no byte outside its range, does not lower the size, and the size covers the
bytes it acknowledges. -/
structure WriteExact (state : FsState) (file : NebulaFile) (offset len : Nat)
    (result : Except Errno Nat) (file' : NebulaFile) (state' : FsState) : Prop where
  kept : ∀ pos, ¬ (offset ≤ pos ∧ pos < offset + len) →
    file'.inode.logicalByte state'.disk pos = file.inode.logicalByte state.disk pos
  grows : file.inode.sizeBytes ≤ file'.inode.sizeBytes
  reaches : ∀ n, result = .ok n → 0 < n → offset + n ≤ file'.inode.sizeBytes.toNat

/-- A write whose windows all get their runs ends below the last 64-bit position, and of one that is
short of a run the first window without begins where the write does or inside the file.  Outside the
range the file gains no byte that is not zero, neither from the granted runs nor, when its size
passes them, from blocks it had. -/
structure WriteFits (state : FsState) (inode : NebulaInode) (offset len : Nat)
    (windows : List (Nat × Nat)) (granted : List Nat) : Prop where
  whole : windows[granted.length]? = none → offset + len < 2 ^ 64
  short : ∀ window, windows[granted.length]? = some window →
    window.1 * 4096 ≤ offset ∨ window.1 * 4096 ≤ inode.sizeBytes.toNat
  fresh : ∀ pos lba, InWindows windows granted (pos / 4096) lba →
    inode.blockOf (pos / 4096) = none → ¬ (offset ≤ pos ∧ pos < offset + len) →
    pos < max inode.sizeBytes.toNat (offset + len) →
    state.disk.content lba (Fin.ofNat 4096 pos) = 0
  passed : windows[granted.length]? = none → ∀ pos lba, inode.sizeBytes.toNat ≤ pos →
    pos < offset → inode.blockOf (pos / 4096) = some lba →
    state.disk.content lba (Fin.ofNat 4096 pos) = 0

/-- A write that stops past the last 64-bit position does not fit. -/
theorem WriteFits.not_wrapped {state : FsState} {inode : NebulaInode} {offset len : Nat}
    {windows : List (Nat × Nat)} {granted : List Nat}
    (fits : WriteFits state inode offset len windows granted) (low : offset < 2 ^ 64) :
    ¬ 2 ^ 64 ≤ writeStop offset len windows granted := by
  intro stop
  rw [writeStop] at stop
  have bound := inode.sizeBytes.toNat_lt
  cases reached : windows[granted.length]? with
  | none =>
      have whole := fits.whole reached
      simp only [reached] at stop
      omega
  | some window =>
      have first := fits.short window reached
      simp only [reached, le_max_iff] at stop
      omega

theorem plannedSize_ge (inode : NebulaInode) (offset len n : Nat) :
    inode.sizeBytes.toNat ≤ plannedSize inode offset len n := by
  rw [plannedSize]
  split_ifs
  · exact Nat.le_max_left _ _
  · exact le_rfl

theorem plannedSize_le (inode : NebulaInode) (offset len n : Nat) :
    plannedSize inode offset len n ≤ max inode.sizeBytes.toNat (offset + len) := by
  rw [plannedSize]
  split_ifs
  · exact le_rfl
  · exact Nat.le_max_left _ _

namespace WriteLeaves

variable {offset len : Nat} {plan : Nat × NebulaInode} {result : Except Errno Nat}
  {file' : NebulaFile} {state' : FsState}

/-- A byte of a mapped block outside the range, before and after. -/
theorem byteAt_mapped (leaves : WriteLeaves state file offset len plan result file' state')
    (most : plan.1 ≤ len) {pos lba : Nat} (away : ¬ (offset ≤ pos ∧ pos < offset + len))
    (found : plan.2.blockOf (pos / 4096) = some lba) :
    file'.inode.byteAt state'.disk pos = state.disk.content lba (Fin.ofNat 4096 pos) := by
  rw [NebulaInode.byteAt, leaves.mapped, found]
  exact leaves.kept pos lba found (by omega)

theorem byteAt_hole (leaves : WriteLeaves state file offset len plan result file' state')
    {pos : Nat} (found : plan.2.blockOf (pos / 4096) = none) :
    file'.inode.byteAt state'.disk pos = 0 ∧ file.inode.byteAt state.disk pos = 0 := by
  constructor
  · rw [NebulaInode.byteAt, leaves.mapped, found]
  · cases before : file.inode.blockOf (pos / 4096) with
    | none => rw [NebulaInode.byteAt, before]
    | some lba =>
        rw [leaves.extends_ _ _ before] at found
        cases found

/-- Bytes outside the range keep their values exactly if no stale one is mapped. -/
theorem kept_iff (leaves : WriteLeaves state file offset len plan result file' state')
    (most : plan.1 ≤ len) :
    (∀ pos, ¬ (offset ≤ pos ∧ pos < offset + len) →
      file'.inode.logicalByte state'.disk pos = file.inode.logicalByte state.disk pos) ↔
    ∀ pos lba, ¬ (offset ≤ pos ∧ pos < offset + len) →
      pos < plannedSize file.inode offset len plan.1 → plan.2.blockOf (pos / 4096) = some lba →
      (file.inode.sizeBytes.toNat ≤ pos ∨ file.inode.blockOf (pos / 4096) = none) →
      state.disk.content lba (Fin.ofNat 4096 pos) = 0 := by
  have grows := plannedSize_ge file.inode offset len plan.1
  constructor
  · intro kept pos lba away below found fresh
    have same := kept pos away
    rw [NebulaInode.logicalByte, leaves.size, if_pos below,
      leaves.byteAt_mapped most away found] at same
    rw [same, NebulaInode.logicalByte]
    split_ifs with old
    · rcases fresh with beyond | hole
      · omega
      · rw [NebulaInode.byteAt, hole]
    · rfl
  · intro clean pos away
    rw [NebulaInode.logicalByte, NebulaInode.logicalByte, leaves.size]
    by_cases below : pos < plannedSize file.inode offset len plan.1
    · rw [if_pos below]
      cases found : plan.2.blockOf (pos / 4096) with
      | none =>
          obtain ⟨after, before⟩ := leaves.byteAt_hole found
          rw [after, before, ite_self]
      | some lba =>
          rw [leaves.byteAt_mapped most away found]
          split_ifs with old
          · cases before : file.inode.blockOf (pos / 4096) with
            | none => rw [clean pos lba away below found (.inr before), NebulaInode.byteAt, before]
            | some lba' =>
                have same := leaves.extends_ _ _ before
                rw [found, Option.some.injEq] at same
                rw [NebulaInode.byteAt, before, same]
          · exact clean pos lba away below found (.inl (by omega))
    · rw [if_neg below, if_neg (by omega)]

/-- The size covers what is acknowledged exactly if nothing, everything or a part inside the file is
written. -/
theorem reaches_iff (leaves : WriteLeaves state file offset len plan result file' state') :
    (∀ n, result = .ok n → 0 < n → offset + n ≤ file'.inode.sizeBytes.toNat) ↔
      plan.1 = 0 ∨ plan.1 = len ∨ offset + plan.1 ≤ file.inode.sizeBytes.toNat := by
  rw [leaves.size, plannedSize]
  constructor
  · intro covers
    rcases Nat.eq_zero_or_pos plan.1 with zero | positive
    · exact .inl zero
    · have covered := covers plan.1 ((leaves.count plan.1 positive).mpr rfl) positive
      by_cases full : plan.1 = len
      · exact .inr (.inl full)
      · rw [if_neg full] at covered
        exact .inr (.inr covered)
  · intro ends n returned positive
    obtain rfl := (leaves.count n positive).mp returned
    rcases ends with zero | full | inside
    · omega
    · rw [if_pos full]
      omega
    · split_ifs <;> omega

/-- A write below the last 64-bit position is exact exactly if it fits. -/
theorem exact_iff (leaves : WriteLeaves state file offset len plan result file' state')
    (most : plan.1 ≤ len) (unwrapped : offset + plan.1 < 2 ^ 64) {granted : List Nat}
    (agrees : PlanAgrees file.inode offset len (file.inode.windows offset len) granted plan) :
    WriteExact state file offset len result file' state' ↔
      WriteFits state file.inode offset len (file.inode.windows offset len) granted := by
  obtain ⟨-, stop, maps⟩ | ⟨wrapped, -⟩ := agrees
  swap
  · omega
  have inside : ∀ window, (file.inode.windows offset len)[granted.length]? = some window →
      offset / 4096 ≤ window.1 ∧ window.1 * 4096 < offset + len ∧ offset < offset + len :=
    fun window reached => holeWindows_inside (List.mem_of_getElem? reached)
  have bounds : ∀ blk lba, InWindows (file.inode.windows offset len) granted blk lba →
      offset / 4096 ≤ blk ∧ ∀ window, (file.inode.windows offset len)[granted.length]? =
        some window → blk < window.1 := fun blk lba => inWindows_bounds
  generalize file.inode.windows offset len = windows at *
  have full := writeStop_all stop
  have short : ∀ window, windows[granted.length]? = some window →
      plan.1 = window.1 * 4096 - offset ∧ plan.1 ≠ len := fun window reached =>
    writeStop_short stop reached (inside window reached).2.1 (inside window reached).2.2
  have ends : (plan.1 = 0 ∨ plan.1 = len ∨ offset + plan.1 ≤ file.inode.sizeBytes.toNat) ↔
      ∀ window, windows[granted.length]? = some window →
        window.1 * 4096 ≤ offset ∨ window.1 * 4096 ≤ file.inode.sizeBytes.toNat := by
    cases reached : windows[granted.length]? with
    | none => simp [full reached]
    | some window =>
        obtain ⟨count, partly⟩ := short window reached
        simp only [Option.some.injEq, forall_eq']
        omega
  have size := plannedSize_le file.inode offset len plan.1
  constructor
  · intro exact
    have ended := ends.mp (leaves.reaches_iff.mp exact.reaches)
    have kept := (leaves.kept_iff most).mp exact.kept
    refine ⟨fun all => by rw [← full all]; exact unwrapped, ended, ?_, ?_⟩
    · intro pos lba mapped hole away below
      refine kept pos lba away ?_ ((maps _ _).mpr (.inr ⟨hole, mapped⟩)) (.inr hole)
      obtain ⟨low, before⟩ := bounds _ _ mapped
      cases reached : windows[granted.length]? with
      | none => rwa [plannedSize, if_pos (full reached)]
      | some window =>
          have less := before window reached
          have old := plannedSize_ge file.inode offset len plan.1
          rcases ended window reached with first | inFile <;> omega
    · intro all pos lba beyond before found
      refine kept pos lba (by omega) ?_ ((maps _ _).mpr (.inl found)) (.inl beyond)
      rw [plannedSize, if_pos (full all)]
      omega
  · intro fits
    refine ⟨(leaves.kept_iff most).mpr fun pos lba away below found stale => ?_, ?_,
      leaves.reaches_iff.mpr (ends.mpr fits.short)⟩
    · rcases (maps _ _).mp found with known | ⟨hole, mapped⟩
      · have beyond : file.inode.sizeBytes.toNat ≤ pos := by
          rcases stale with beyond | hole
          · exact beyond
          · rw [hole] at known
            cases known
        cases reached : windows[granted.length]? with
        | none => exact fits.passed reached pos lba beyond (by omega) known
        | some window =>
            rw [plannedSize, if_neg (short window reached).2] at below
            omega
      · exact fits.fresh pos lba mapped hole away (below.trans_le size)
    · rw [UInt64.le_iff_toNat_le, leaves.size]
      exact plannedSize_ge _ _ _ _

end WriteLeaves

theorem writePlan_le (capacity fuel : Nat) (used : Nat → Bool) (inode : NebulaInode)
    (curOff left : Nat) : (writePlan capacity fuel used inode curOff left).1 ≤ left := by
  induction fuel generalizing used inode curOff left with
  | zero => exact Nat.zero_le _
  | succ fuel ih =>
      rw [writePlan]
      split_ifs with done
      · exact Nat.zero_le _
      · obtain ⟨-, fewer, -⟩ := @blockPart_bounds curOff left (by omega)
        split
        · exact Nat.zero_le _
        next used' inode' _ =>
          have rest := ih used' inode' (curOff + blockPart curOff left)
            (left - blockPart curOff left)
          simp only
          omega

/-- A write past the last 64-bit position acknowledges more than any size can cover. -/
theorem fileWrite_wraps (solid : state.Solid uuid layout) (backs : state.Backs layout file.inode)
    (inside : file.inode.inodeNum.toNat < layout.inodePageBlockCount)
    (writable : file.flags &&& openWriteOnly ≠ 0) (offset : UInt64) {data : List UInt8}
    (some : data ≠ []) (now : UInt64)
    (wrapped : 2 ^ 64 ≤ offset.toNat + (writePlan layout.capacityBlocks data.length state.taken
      file.inode offset.toNat data.length).1) :
    ∃ n file' state', (nebulaFileWrite file offset data now).run state =
        (.ok (.ok n, file'), state') ∧ 0 < n ∧ 2 ^ 64 ≤ offset.toNat + n := by
  obtain ⟨stop, n, next, middle, ends, -, -, follows, ran⟩ :=
    fileWrite_spec solid backs inside writable offset some now
  have far : 2 ^ 64 ≤ offset.toNat + n := by
    rcases follows with ⟨low, same⟩ | ⟨high, -⟩
    · have count := congrArg Prod.fst same
      simp only at count
      omega
    · exact high
  have bound := offset.toNat_lt
  have positive : 0 < n := by omega
  rcases ran with ⟨-, error, ran⟩ | ⟨-, ran⟩
  · rw [shortCount, if_pos positive] at ran
    exact ⟨n, _, _, ran, positive, far⟩
  · exact ⟨n, _, _, ran, positive, far⟩

theorem WriteExact.of_idle (state : FsState) (file : NebulaFile) (offset len : Nat)
    {result : Except Errno Nat} (nothing : ∀ n, result = .ok n → n = 0) :
    WriteExact state file offset len result file state := by
  refine ⟨fun _ _ => rfl, by rw [UInt64.le_iff_toNat_le], fun n returned positive => ?_⟩
  rw [nothing n returned] at positive
  omega

/-- A write, at every offset and of every length. -/
theorem fileWrite_exact_iff (solid : state.Solid uuid layout)
    (backs : state.Backs layout file.inode)
    (inside : file.inode.inodeNum.toNat < layout.inodePageBlockCount) (offset : UInt64)
    (data : List UInt8) (now : UInt64) :
    ∃ result file' state', (nebulaFileWrite file offset data now).run state =
        (.ok (result, file'), state') ∧
      (WriteExact state file offset.toNat data.length result file' state' ↔
        file.flags &&& openWriteOnly = 0 ∨ data = [] ∨
          WriteFits state file.inode offset.toNat data.length
            (file.inode.windows offset.toNat data.length)
            (file.inode.granted layout.capacityBlocks state.taken offset.toNat data.length)) := by
  by_cases refused : file.flags &&& openWriteOnly = 0
  · refine ⟨_, _, _, fileWrite_refused refused offset data now, ?_⟩
    exact ⟨fun _ => .inl refused, fun _ => .of_idle state file _ _ fun n ok => by cases ok⟩
  by_cases empty : data = []
  · subst empty
    refine ⟨_, _, _, fileWrite_nothing refused offset now, ?_⟩
    exact ⟨fun _ => .inr (.inl rfl), fun _ => .of_idle state file _ _ fun n ok =>
      (Except.ok.inj ok).symm⟩
  have agrees := @writePlan_agrees layout.capacityBlocks data.length state.taken file.inode
    offset.toNat data.length solid.small backs.mapped backs.taken le_rfl
  rcases Nat.lt_or_ge (offset.toNat + (writePlan layout.capacityBlocks data.length state.taken
    file.inode offset.toNat data.length).1) (2 ^ 64) with unwrapped | wrapped
  · obtain ⟨result, file', state', ran, leaves⟩ :=
      fileWrite_leaves solid backs inside refused offset empty now unwrapped
    refine ⟨result, file', state', ran, ?_⟩
    rw [leaves.exact_iff (writePlan_le _ _ _ _ _ _) unwrapped agrees]
    simp only [refused, empty, false_or]
  · obtain ⟨n, file', state', ran, positive, far⟩ :=
      fileWrite_wraps solid backs inside refused offset empty now wrapped
    refine ⟨_, file', state', ran, fun exact => ?_, fun fits => ?_⟩
    · have covered := exact.reaches n rfl positive
      have bound := file'.inode.sizeBytes.toNat_lt
      omega
    · rcases fits with bad | bad | fits
      · exact absurd bad refused
      · exact absurd bad empty
      · rcases agrees with ⟨unwrapped, -⟩ | ⟨-, stop⟩
        · omega
        · exact absurd stop (fits.not_wrapped offset.toNat_lt)

theorem fileReadLoop_length (serves : state.Serves file.inode) (offset : UInt64) {len fuel : Nat}
    {bytes : List UInt8} (most : bytes.length ≤ len) (enough : len ≤ bytes.length + fuel) :
    ∃ bytes', (fileReadLoop file offset len fuel bytes).run state = (.ok (none, bytes'), state) ∧
      bytes'.length = len := by
  induction fuel generalizing bytes with
  | zero => exact ⟨bytes, rfl, by omega⟩
  | succ fuel ih =>
      rw [fileReadLoop]
      split_ifs with more
      · obtain ⟨positive, fewer, fits⟩ := @blockPart_bounds
          ((offset.toNat + bytes.length) % 2 ^ 64) (len - bytes.length) (by omega)
        simp only
        generalize (offset.toNat + bytes.length) % 2 ^ 64 = curOff at *
        cases known : extentFind file.inode (curOff / 4096) with
        | none =>
            exact ih (by rw [List.length_append, List.length_replicate]; omega)
              (by rw [List.length_append, List.length_replicate]; omega)
        | some index =>
            have mapped : file.inode.blockOf (curOff / 4096) =
                some ((file.inode.extents index).physLba (curOff / 4096)) := by
              rw [NebulaInode.blockOf, known, Option.map_some]
            simp only [run_attempt_bind,
              FsState.run_ioRead_of_lt serves.faultFree (serves.onDevice _ _ mapped)]
            have part : (Block.slice (state.disk.content
                ((file.inode.extents index).physLba (curOff / 4096))) (curOff % 4096)
                (blockPart curOff (len - bytes.length))).length =
                  blockPart curOff (len - bytes.length) := by
              rw [Block.slice_eq _ fits, List.length_map, List.length_range]
            exact ih (by rw [List.length_append, part]; omega)
              (by rw [List.length_append, part]; omega)
      · exact ⟨bytes, rfl, by omega⟩

/-- A read returns what lies between its offset and the size exactly if its end does not wrap. -/
theorem fileRead_exact_iff (serves : state.Serves file.inode)
    (readable : file.flags &&& openReadOnly ≠ 0) (offset len now : UInt64) :
    ∃ bytes file', (nebulaFileRead file offset len.toNat now).run state =
        (.ok (.ok bytes, file'), state) ∧
      (bytes.length = min len.toNat (file.inode.sizeBytes.toNat - offset.toNat) ↔
        file.inode.sizeBytes.toNat ≤ offset.toNat ∨ offset.toNat + len.toNat < 2 ^ 64) := by
  have bound := file.inode.sizeBytes.toNat_lt
  have bound' := len.toNat_lt
  by_cases unwrapped : offset.toNat + len.toNat < 2 ^ 64
  · obtain ⟨time, ran⟩ := serves.read readable offset unwrapped now
    refine ⟨_, _, ran, fun _ => .inr unwrapped, fun _ => ?_⟩
    rw [NebulaInode.reads, NebulaInode.bytesAt, List.length_map, List.length_range]
  have positive : len.toNat ≠ 0 := by
    have low := offset.toNat_lt
    omega
  rw [nebulaFileRead, if_neg readable, if_neg positive]
  by_cases beyond : file.inode.sizeBytes ≤ offset
  · rw [if_pos beyond]
    rw [UInt64.le_iff_toNat_le] at beyond
    refine ⟨_, _, run_pure _ _, fun _ => .inl beyond, fun _ => ?_⟩
    rw [List.length_nil]
    omega
  · rw [if_neg beyond]
    rw [UInt64.le_iff_toNat_le] at beyond
    have whole : readLen file offset len.toNat = len.toNat := by
      rw [readLen, if_neg (by omega)]
    obtain ⟨bytes, ran, length⟩ := @fileReadLoop_length state file serves offset len.toNat len.toNat
      [] (by simp) (by simp)
    rw [whole, run_bind_ok ran]
    refine ⟨_, _, rfl, fun same => ?_, fun fits => ?_⟩
    · omega
    · omega

/-- At every 64-bit offset and for every length: a write changes only the bytes of its range and
covers what it acknowledges exactly if it is refused, empty or fits; a read returns the bytes up to
the size exactly if it starts past it or its end does not wrap. -/
theorem offsets_exact_iff (solid : state.Solid uuid layout) (backs : state.Backs layout file.inode)
    (inside : file.inode.inodeNum.toNat < layout.inodePageBlockCount) (offset : UInt64)
    (data : List UInt8) (len now : UInt64) :
    (∃ result file' state', (nebulaFileWrite file offset data now).run state =
        (.ok (result, file'), state') ∧
      (WriteExact state file offset.toNat data.length result file' state' ↔
        file.flags &&& openWriteOnly = 0 ∨ data = [] ∨
          WriteFits state file.inode offset.toNat data.length
            (file.inode.windows offset.toNat data.length)
            (file.inode.granted layout.capacityBlocks state.taken offset.toNat data.length))) ∧
    (file.flags &&& openReadOnly ≠ 0 →
      ∃ bytes file', (nebulaFileRead file offset len.toNat now).run state =
          (.ok (.ok bytes, file'), state) ∧
        (bytes.length = min len.toNat (file.inode.sizeBytes.toNat - offset.toNat) ↔
          file.inode.sizeBytes.toNat ≤ offset.toNat ∨ offset.toNat + len.toNat < 2 ^ 64)) :=
  ⟨fileWrite_exact_iff solid backs inside offset data now, fun readable =>
    fileRead_exact_iff (backs.serves solid) readable offset len now⟩

end Leaves

theorem offsets_exact_created : ∃ (layout : NebulaLayout) (number : Nat) (state : FsState),
    FirstFile layout number state ∧
      (∃ result file' state', (nebulaFileWrite (createdFile number 0 0) 5 [7] 0).run state =
          (.ok (result, file'), state') ∧
        (WriteExact state (createdFile number 0 0) 5 1 result file' state' ↔
          (createdFile number 0 0).flags &&& openWriteOnly = 0 ∨ [(7 : UInt8)] = [] ∨
            WriteFits state (createdFile number 0 0).inode 5 1
              ((createdFile number 0 0).inode.windows 5 1)
              ((createdFile number 0 0).inode.granted layout.capacityBlocks state.taken 5 1))) ∧
      ((createdFile number 0 0).flags &&& openReadOnly ≠ 0 →
        ∃ bytes file', (nebulaFileRead (createdFile number 0 0) 5 (4 : UInt64).toNat 0).run state =
            (.ok (.ok bytes, file'), state) ∧
          (bytes.length = min (4 : UInt64).toNat
              ((createdFile number 0 0).inode.sizeBytes.toNat - (5 : UInt64).toNat) ↔
            (createdFile number 0 0).inode.sizeBytes.toNat ≤ (5 : UInt64).toNat ∨
              (5 : UInt64).toNat + (4 : UInt64).toNat < 2 ^ 64)) := by
  obtain ⟨layout, mount, number, state, total, -, -, first⟩ :=
    @plainDisk_created 65536 (by decide) (by decide) (by decide)
  exact ⟨layout, number, state, first, offsets_exact_iff (first.solid (by rw [total]; decide))
    first.backs first.inside 5 [7] 4 0⟩

/-- A byte written to the last 64-bit position of a new file is acknowledged and leaves the file
empty. -/
theorem write_last_position : ∃ (layout : NebulaLayout) (mount : NebulaMount) (number : Nat)
    (state : FsState) (result : Except Errno Nat) (file' : NebulaFile) (state' : FsState),
    nebulaMountDo (fun _ => zeroBlock) (plainDisk 65536 (by decide)) = .ok mount ∧
    (nebulaFileCreate 0 0).run ⟨⟨plainDisk 65536 (by decide), mount⟩, []⟩ =
      (.ok (createdFile number 0 0), state) ∧
    FirstFile layout number state ∧
    (nebulaFileWrite (createdFile number 0 0) 0xFFFFFFFFFFFFFFFF [7] 0).run state =
      (.ok (result, file'), state') ∧
    ¬ WriteExact state (createdFile number 0 0) (2 ^ 64 - 1) 1 result file' state' := by
  obtain ⟨layout, mount, number, state, total, mounts, created, first⟩ :=
    @plainDisk_created 65536 (by decide) (by decide) (by decide)
  have room := first.exact.sound.data_room
  have tail := first.exact.sound.allocRootsTail_eq
  obtain ⟨lba, inode, -, -, -, planned⟩ :=
    @writePlan_hole (createdFile number 0 0).inode state.taken
    layout.capacityBlocks (0xFFFFFFFFFFFFFFFF : UInt64).toNat 1 layout.dataStartLba Nat.one_pos
    (by decide) (createdFile_hole _ _ _ _) (first.free _ le_rfl (by omega)) (by omega) 0
    (by rw [createdFile_extents]; decide)
  obtain ⟨n, file', state', ran, positive, far⟩ := fileWrite_wraps
    (first.solid (by rw [total]; decide)) first.backs first.inside
    (show openReadWrite &&& openWriteOnly ≠ 0 by decide) 0xFFFFFFFFFFFFFFFF
    (List.cons_ne_nil (7 : UInt8) []) 0 (by
      rw [List.length_singleton, planned]
      show 2 ^ 64 ≤ (0xFFFFFFFFFFFFFFFF : UInt64).toNat + 1
      decide)
  refine ⟨layout, mount, number, state, _, file', state', mounts, created, first, ran,
    fun exact => ?_⟩
  have covered := exact.reaches n rfl positive
  have bound := file'.inode.sizeBytes.toNat_lt
  have last : (0xFFFFFFFFFFFFFFFF : UInt64).toNat = 2 ^ 64 - 1 := by decide
  omega

end MiniFs
