import MiniFs.Fs.FileCalls

/-!
# Rounds of a write

What a write does to the inode in its handle, whatever the device answers: a round whose block has
an extent leaves the inode alone, and any other round may append an extent.
-/

namespace MiniFs

open Fs

/-- The byte offset of the round after `written` bytes. -/
def roundOff (offset : UInt64) (written : Nat) : Nat := (offset.toNat + written) % 2 ^ 64

/-- A property that the rounds of a write keep: in a round whose block has no extent, one is
appended for the rest of the write. -/
structure RoundRule (offset : UInt64) (data : List UInt8)
    (Q : Nat → NebulaInode → Prop) : Prop where
  found : ∀ {written inode index}, Q written inode → written < data.length →
    extentFind inode (roundOff offset written / 4096) = some index →
    Q (written + blockPart (roundOff offset written) (data.length - written)) inode
  added : ∀ {written inode inode' lba}, Q written inode → written < data.length →
    extentFind inode (roundOff offset written / 4096) = none →
    extentAppend inode (roundOff offset written / 4096)
      (needBlks (data.length - written) (roundOff offset written % 4096)) lba = some inode' →
    Q (written + blockPart (roundOff offset written) (data.length - written)) inode'

/-- What the mapping part of a round may do: fail, find the extent, or append one. -/
inductive MapResult (file : NebulaFile) (blk need : Nat) (state : FsState) :
    Except Errno Nat × NebulaFile → FsState → Prop
  | failed (error : Errno) (after : FsState) : MapResult file blk need state
      (.error error, file) after
  | found {index : Fin 248} (known : extentFind file.inode blk = some index) :
      MapResult file blk need state (.ok ((file.inode.extents index).physLba blk), file) state
  | added {lba : Nat} {inode : NebulaInode} {after : FsState}
      (unknown : extentFind file.inode blk = none)
      (allocated : (blockAlloc need).run state = (.ok lba, after))
      (appended : extentAppend file.inode blk need lba = some inode) :
      MapResult file blk need state (.ok lba, { file with inode, dirty := true }) after

theorem fileWriteMap_result (file : NebulaFile) (blk blkOff bytesLeft : Nat) (state : FsState) :
    ∃ result after, (fileWriteMap file blk blkOff bytesLeft).run state = (.ok result, after) ∧
      MapResult file blk (needBlks bytesLeft blkOff) state result after := by
  cases known : extentFind file.inode blk with
  | some index =>
      refine ⟨_, state, ?_, .found known⟩
      simp only [fileWriteMap, known, run_pure]
  | none =>
      cases ran : (blockAlloc (needBlks bytesLeft blkOff)).run state with
      | mk answer after =>
          cases answer with
          | error error =>
              refine ⟨_, after, ?_, .failed error after⟩
              simp only [fileWriteMap, known, run_attempt_bind, ran, run_pure]
          | ok lba =>
              cases appended : extentAppend file.inode blk (needBlks bytesLeft blkOff) lba with
              | none =>
                  refine ⟨_, ((blockFree lba (needBlks bytesLeft blkOff)).run after).2, ?_,
                    .failed .ENOSPC _⟩
                  simp only [fileWriteMap, known, run_attempt_bind, ran, appended, run_pure]
              | some inode =>
                  refine ⟨_, after, ?_, .added known ran appended⟩
                  simp only [fileWriteMap, known, run_attempt_bind, ran, appended, run_pure]

/-- How the loop of a write ends, as far as the handle goes. -/
structure LoopLeaves (file : NebulaFile) (len : Nat) (Q : Nat → NebulaInode → Prop)
    (stop : Option Errno) (n : Nat) (next : NebulaFile) : Prop where
  flags : next.flags = file.flags
  rest : next.inode = { file.inode with extents := next.inode.extents }
  dirty : next = file ∨ next.dirty = true
  kept : ∃ written, Q written next.inode
  whole : stop = none → n = len ∧ Q len next.inode
  short : stop ≠ none → n < len

/-- The loop ends, and keeps what its rounds keep. -/
theorem fileWriteLoop_rule {offset : UInt64} {data : List UInt8} {Q : Nat → NebulaInode → Prop}
    (rule : RoundRule offset data Q) {fuel written : Nat} {file : NebulaFile} (state : FsState)
    (holds : Q written file.inode) (most : written ≤ data.length)
    (enough : data.length ≤ written + fuel) :
    ∃ stop n next after,
      (fileWriteLoop offset data fuel written file).run state = (.ok (stop, n, next), after) ∧
      LoopLeaves file data.length Q stop n next := by
  induction fuel generalizing written file state with
  | zero =>
      obtain rfl : written = data.length := by omega
      exact ⟨none, _, file, state, rfl, rfl, rfl, .inl rfl, ⟨_, holds⟩, fun _ => ⟨rfl, holds⟩,
        fun wrong => absurd rfl wrong⟩
  | succ fuel ih =>
      by_cases more : written < data.length
      · have some : 0 < data.length - written := by omega
        have advance : 0 < blockPart (roundOff offset written) (data.length - written) ∧
            blockPart (roundOff offset written) (data.length - written) ≤
              data.length - written := by
          simp only [blockPart]
          omega
        obtain ⟨⟨result, next⟩, middle, ran, mapped⟩ := fileWriteMap_result file
          (roundOff offset written / 4096) (roundOff offset written % 4096) (data.length - written)
          state
        rw [fileWriteLoop, if_pos more]
        simp only [roundOff] at ran
        rw [run_bind_ok ran]
        cases result with
        | error error =>
            cases mapped with
            | failed =>
                exact ⟨_, written, file, middle, rfl, rfl, rfl, .inl rfl, ⟨_, holds⟩,
                  (by rintro ⟨⟩), fun _ => more⟩
        | ok lba =>
            have kept : next.flags = file.flags ∧
                next.inode = { file.inode with extents := next.inode.extents } ∧
                (next = file ∨ next.dirty = true) ∧
                Q (written + blockPart (roundOff offset written) (data.length - written))
                  next.inode := by
              cases mapped with
              | found known => exact ⟨rfl, rfl, .inl rfl, rule.found holds more known⟩
              | added unknown allocated appended =>
                  obtain ⟨_, -, -, same⟩ := extentAppend_eq_some appended
                  exact ⟨rfl, by rw [same], .inr rfl, rule.added holds more unknown appended⟩
            obtain ⟨flags, rest, dirty, holds'⟩ := kept
            simp only [run_attempt_bind]
            generalize (fileWriteBlock lba _ _).run middle = transferred
            obtain ⟨result, after⟩ := transferred
            cases result with
            | error error =>
                exact ⟨_, written, next, after, rfl, flags, rest, dirty, ⟨_, holds'⟩,
                  (by rintro ⟨⟩), fun _ => more⟩
            | ok done =>
                obtain ⟨stop, n, last, final, ran', leaves⟩ := @ih
                  (written + blockPart (roundOff offset written) (data.length - written))
                  { next with dirty := true } after holds' (by omega) (by omega)
                refine ⟨stop, n, last, final, ran', leaves.flags.trans flags, ?_, ?_, leaves.kept,
                  leaves.whole, leaves.short⟩
                · rw [leaves.rest, rest]
                · rcases leaves.dirty with rfl | dirty
                  · exact .inr rfl
                  · exact .inr dirty
      · obtain rfl : written = data.length := by omega
        refine ⟨none, _, file, state, ?_, rfl, rfl, .inl rfl, ⟨_, holds⟩, fun _ => ⟨rfl, holds⟩,
          fun wrong => absurd rfl wrong⟩
        rw [fileWriteLoop, if_neg more, run_pure]

namespace Fs

variable {α β : Type} {Inv : FsState → Prop}

/-- A program keeps a property of the state. -/
def Keeps (Inv : FsState → Prop) (program : Fs α) : Prop :=
  ∀ state, Inv state → Inv (program.run state).2

theorem keeps_pure (value : α) : Keeps Inv (pure value : Fs α) := fun _ holds => holds

theorem Keeps.attempt {program : Fs α} (keeps : Keeps Inv program) : Keeps Inv program.attempt :=
  keeps

theorem Keeps.bind {first : Fs α} {second : α → Fs β} (keeps : Keeps Inv first)
    (later : ∀ value, Keeps Inv (second value)) : Keeps Inv (first >>= second) := by
  intro state holds
  have middle := keeps state holds
  rw [run_bind]
  generalize first.run state = ran at middle
  obtain ⟨result, after⟩ := ran
  cases result with
  | ok value => exact later value after middle
  | error error => exact middle

end Fs

section Ready

variable {uuid : Bytes 16} {layout : NebulaLayout}

theorem ready_ioRead (lba : Nat) : Keeps (FsState.Ready uuid layout) (ioRead lba) := by
  intro state ready
  have idles := FsState.next_idles state lba
  rwa [show ((ioRead lba).run state).2 = (state.next lba).2 from rfl, idles.eq ready.faultFree]

theorem ready_ioWrite (lba : Nat) (block : Block) :
    Keeps (FsState.Ready uuid layout) (ioWrite lba block) := by
  intro state ready
  obtain ⟨part, -, pushed⟩ :=
    nebulaIoWrite_push (state.next lba).1 (state.next lba).2.disk lba [block]
  have after : ((ioWrite lba block).run state).2 =
      (state.next lba).2.withDisk ((state.next lba).2.disk.push part) := by
    rw [← pushed]
    rfl
  rw [after, (FsState.next_idles state lba).eq ready.faultFree]
  exact ready.withDisk rfl

theorem FsState.Ready.withVolume {state : FsState} (ready : state.Ready uuid layout)
    {volume : Volume} (capacity : volume.disk.capacityBlocks = state.disk.capacityBlocks)
    (sb : volume.mount.sb = state.mount.sb) : (state.withVolume volume).Ready uuid layout :=
  ⟨⟨ready.placed.sound, capacity.trans ready.placed.capacity, sb.trans ready.placed.sb⟩,
    ready.faultFree⟩

/-- An allocation writes pages of the bitmap only. -/
theorem FsState.Ready.blockAlloc_spec {state : FsState} (ready : state.Ready uuid layout)
    (n : Nat) :
    ((blockAlloc n).run state).2.Ready uuid layout ∧
      KeepsBlocks layout state ((blockAlloc n).run state).2 ∧
      ∀ lba, ((blockAlloc n).run state).1 = .ok lba → lba + n ≤ layout.capacityBlocks := by
  have same := (FsState.next_idles state state.mount.sb.bitmapLba.toNat).eq ready.faultFree
  have searched : searchedBits state.mount ≤ layout.capacityBlocks := by
    rw [searchedBits, ready.placed.records.deviceCapacityBlocks]
    exact min_le_right _ _
  have pages : ∀ (bitmap : HierBitmap) {start : Nat}, 0 < n → start + n ≤ searchedBits state.mount →
      ∀ write ∈ pageWrites (state.mount.withBitmap bitmap) start n, InBitmap layout write.1 := by
    intro bitmap start positive inside
    exact pageWrites_inBitmap ready.placed.sound (by exact ready.placed.records) positive
      (inside.trans searched)
  simp only [blockAlloc, run_of]
  generalize state.next state.mount.sb.bitmapLba.toNat = requested at same
  obtain ⟨outcome, before⟩ := requested
  obtain rfl : before = state := same
  have result := nebulaBlockAlloc_result outcome before.disk before.mount n
  generalize nebulaBlockAlloc outcome before.disk before.mount n = done at result
  cases result with
  | ok start positive free inside least room =>
      refine ⟨ready.withVolume rfl rfl, keepsBlocks_of_writes rfl (pages _ positive inside), ?_⟩
      rintro lba ⟨⟩
      exact inside.trans searched
  | error error start part sub inside =>
      refine ⟨ready.withVolume rfl rfl, keepsBlocks_of_writes rfl fun write member => ?_,
        by rintro lba ⟨⟩⟩
      obtain ⟨positive, within⟩ := inside (List.ne_nil_of_mem member)
      exact pages _ positive within write (sub.subset member)

theorem ready_blockAlloc (n : Nat) : Keeps (FsState.Ready uuid layout) (blockAlloc n) :=
  fun _ ready => (ready.blockAlloc_spec n).1

/-- A free of blocks of the device writes pages of the bitmap only. -/
theorem FsState.Ready.blockFree_keeps {state : FsState} (ready : state.Ready uuid layout)
    {lba n : Nat} (inside : lba + n ≤ layout.capacityBlocks) :
    KeepsBlocks layout state ((blockFree lba n).run state).2 := by
  have same := (FsState.next_idles state state.mount.sb.bitmapLba.toNat).eq ready.faultFree
  have bound := ready.placed.capacity_lt
  simp only [blockFree, run_of]
  generalize state.next state.mount.sb.bitmapLba.toNat = requested at same
  obtain ⟨outcome, before⟩ := requested
  obtain rfl : before = state := same
  by_cases accepted : FreeAccepted before.mount lba n
  · obtain ⟨positive, -, -⟩ := accepted.taken (by omega)
    have pages : ∀ (bitmap : HierBitmap),
        ∀ write ∈ pageWrites (before.mount.withBitmap bitmap) lba n, InBitmap layout write.1 :=
      fun bitmap => pageWrites_inBitmap ready.placed.sound (by exact ready.placed.records) positive
        inside
    have result := nebulaBlockFree_result outcome before.disk accepted (by omega)
    generalize nebulaBlockFree outcome before.disk before.mount lba n = done at result
    cases result with
    | ok => exact keepsBlocks_of_writes rfl (pages _)
    | error error part sub =>
        exact keepsBlocks_of_writes rfl fun write member => pages _ write (sub.subset member)
  · obtain ⟨error, refused⟩ := nebulaBlockFree_refused accepted
    rw [refused]
    exact fun _ _ => rfl

theorem ready_blockFree (lba n : Nat) : Keeps (FsState.Ready uuid layout) (blockFree lba n) := by
  intro state ready
  have same := (FsState.next_idles state state.mount.sb.bitmapLba.toNat).eq ready.faultFree
  simp only [blockFree, run_of]
  generalize state.next state.mount.sb.bitmapLba.toNat = requested at same
  obtain ⟨outcome, before⟩ := requested
  obtain rfl : before = state := same
  simp only [nebulaBlockFree]
  split_ifs
  · exact ready.withVolume rfl rfl
  · exact ready.withVolume rfl rfl
  · exact ready.withVolume rfl rfl
  · obtain ⟨part, -, pushed⟩ := nebulaIoWrite_push outcome before.disk
      ((before.mount.withBitmap (unmarkRun before.mount.bitmap lba n)).sb.bitmapLba.toNat +
        lba / bitmapBitsPerPage) ((List.range ((lba + n - 1) % 2 ^ 64 / bitmapBitsPerPage -
          lba / bitmapBitsPerPage + 1)).map fun index =>
            (before.mount.withBitmap (unmarkRun before.mount.bitmap lba n)).bitmap.l0Bits
              (lba / bitmapBitsPerPage + index))
    rw [← flushDirtyPages] at pushed
    generalize flushDirtyPages outcome before.disk _ lba _ = flushed at pushed
    obtain ⟨status, disk⟩ := flushed
    obtain rfl : disk = before.disk.push part := pushed
    cases status with
    | ok done => exact ready.withVolume rfl rfl
    | error error => exact ready.withVolume rfl rfl

theorem ready_fileWriteMap (file : NebulaFile) (blk blkOff bytesLeft : Nat) :
    Keeps (FsState.Ready uuid layout) (fileWriteMap file blk blkOff bytesLeft) := by
  rw [fileWriteMap]
  cases extentFind file.inode blk with
  | some index => exact keeps_pure _
  | none =>
      refine (ready_blockAlloc _).attempt.bind fun answer => ?_
      cases answer with
      | error error => exact keeps_pure _
      | ok lba =>
          simp only
          cases extentAppend file.inode blk (needBlks bytesLeft blkOff) lba with
          | none => exact (ready_blockFree _ _).attempt.bind fun _ => keeps_pure _
          | some inode => exact keeps_pure _

theorem ready_fileWriteBlock (lba blkOff : Nat) (bytes : List UInt8) :
    Keeps (FsState.Ready uuid layout) (fileWriteBlock lba blkOff bytes) := by
  rw [fileWriteBlock]
  split_ifs
  · exact (ready_ioRead lba).bind fun block => ready_ioWrite _ _
  · exact (keeps_pure _).bind fun block => ready_ioWrite _ _

theorem ready_fileWriteLoop (offset : UInt64) (data : List UInt8) (fuel written : Nat)
    (file : NebulaFile) :
    Keeps (FsState.Ready uuid layout) (fileWriteLoop offset data fuel written file) := by
  induction fuel generalizing written file with
  | zero => exact keeps_pure _
  | succ fuel ih =>
      rw [fileWriteLoop]
      split_ifs
      · refine (ready_fileWriteMap _ _ _ _).bind ?_
        rintro ⟨result, next⟩
        cases result with
        | error error => exact keeps_pure _
        | ok lba =>
            refine (ready_fileWriteBlock _ _ _).attempt.bind fun answer => ?_
            cases answer with
            | error error => exact keeps_pure _
            | ok done => exact ih _ _
      · exact keeps_pure _

theorem trivial_rule (offset : UInt64) (data : List UInt8) :
    RoundRule offset data fun _ _ => True :=
  ⟨fun _ _ _ => trivial, fun _ _ _ _ => trivial⟩

/-- A round that gets no block writes pages of the bitmap only. -/
theorem FsState.Ready.fileWriteMap_failed {state after : FsState} (ready : state.Ready uuid layout)
    {file next : NebulaFile} {blk blkOff bytesLeft : Nat} {error : Errno}
    (ran : (fileWriteMap file blk blkOff bytesLeft).run state = (.ok (.error error, next), after)) :
    KeepsBlocks layout state after := by
  rw [fileWriteMap] at ran
  cases known : extentFind file.inode blk with
  | some index => simp [known] at ran
  | none =>
      obtain ⟨ready', keeps, inside⟩ := ready.blockAlloc_spec (needBlks bytesLeft blkOff)
      simp only [known, run_attempt_bind] at ran
      generalize (blockAlloc (needBlks bytesLeft blkOff)).run state =
        allocated at ran ready' keeps inside
      obtain ⟨answer, middle⟩ := allocated
      cases answer with
      | error reason =>
          simp only [run_pure, Prod.mk.injEq] at ran
          exact ran.2 ▸ keeps
      | ok lba =>
          cases appended : extentAppend file.inode blk (needBlks bytesLeft blkOff) lba with
          | none =>
              have freed := ready'.blockFree_keeps (inside lba rfl)
              simp only [appended, run_attempt_bind, run_pure, Prod.mk.injEq] at ran
              rw [← ran.2]
              exact fun block outside => (freed block outside).trans (keeps block outside)
          | some inode => simp [appended] at ran

theorem FsState.Ready.fileWriteBlock_failed {state after : FsState}
    (ready : state.Ready uuid layout) {lba blkOff : Nat} {bytes : List UInt8} {error : Errno}
    (ran : (fileWriteBlock lba blkOff bytes).run state = (.error error, after)) : after =
    state := by
  have idles : ∀ block, (ioWrite lba block).run state = (.error error, after) → after = state := by
    intro block failed
    simp only [ioWrite, run_of, FsState.next, ready.faultFree] at failed
    have kept := @nebulaIoWrite_atomic .ok trivial state.disk lba [block] error
      (by simpa using congrArg Prod.fst failed)
    rw [kept, FsState.withDisk_self] at failed
    exact (congrArg Prod.snd failed).symm
  rw [fileWriteBlock] at ran
  split_ifs at ran
  · have read : (ioRead lba).run state = ((nebulaIoRead .ok state.disk lba 1).map fun blocks =>
        blocks.headD zeroBlock, state) := by
      simp only [ioRead, run_of, FsState.next, ready.faultFree]
    rw [run_bind, read] at ran
    cases answer : nebulaIoRead .ok state.disk lba 1 with
    | ok blocks =>
        rw [answer] at ran
        exact idles _ ran
    | error reason =>
        rw [answer] at ran
        exact (congrArg Prod.snd ran).symm
  · exact idles _ ran

/-- A loop that leaves the handle clean has written pages of the bitmap only. -/
theorem FsState.Ready.fileWriteLoop_clean {state after : FsState} (ready : state.Ready uuid layout)
    {offset : UInt64} {data : List UInt8} {fuel written n : Nat} {file next : NebulaFile}
    {stop : Option Errno} (enough : data.length ≤ written + fuel)
    (ran : (fileWriteLoop offset data fuel written file).run state = (.ok (stop, n, next), after))
    (clean : next.dirty = false) : KeepsBlocks layout state after := by
  have still : ∀ {state : FsState}, (.ok (none, written, file), state) =
      ((.ok (stop, n, next), after) : Except Errno _ × FsState) →
        KeepsBlocks layout state after := by
    rintro state ⟨⟩
    exact fun _ _ => rfl
  cases fuel with
  | zero => exact still ran
  | succ fuel =>
      rw [fileWriteLoop] at ran
      split_ifs at ran with more
      · obtain ⟨⟨result, middleFile⟩, middle, mapped, kind⟩ := fileWriteMap_result file
          (roundOff offset written / 4096) (roundOff offset written % 4096) (data.length - written)
          state
        simp only [roundOff] at mapped
        rw [run_bind_ok mapped] at ran
        cases result with
        | error error =>
            have keeps := ready.fileWriteMap_failed mapped
            simp only [run_pure, Prod.mk.injEq] at ran
            exact ran.2 ▸ keeps
        | ok lba =>
            have readyMiddle := ready_fileWriteMap file ((offset.toNat + written) % 2 ^ 64 / 4096)
              ((offset.toNat + written) % 2 ^ 64 % 4096) (data.length - written) state ready
            rw [mapped] at readyMiddle
            simp only [run_attempt_bind] at ran
            cases transferred : (fileWriteBlock lba ((offset.toNat + written) % 2 ^ 64 % 4096)
                (List.take (blockPart ((offset.toNat + written) % 2 ^ 64) (data.length - written))
                  (List.drop written data))).run middle with
            | mk answer last =>
                rw [transferred] at ran
                cases answer with
                | error error =>
                    obtain rfl := readyMiddle.fileWriteBlock_failed transferred
                    simp only [run_pure, Prod.mk.injEq, Except.ok.injEq] at ran
                    obtain ⟨⟨-, -, rfl⟩, rfl⟩ := ran
                    cases kind with
                    | found known => exact fun _ _ => rfl
                    | added => contradiction
                | ok done =>
                    have advance := @blockPart_bounds ((offset.toNat + written) % 2 ^ 64)
                      (data.length - written) (by omega)
                    obtain ⟨_, _, _, _, again, leaves⟩ :=
                      fileWriteLoop_rule (trivial_rule offset data)
                      last trivial (show written + blockPart ((offset.toNat + written) % 2 ^ 64)
                        (data.length - written) ≤ data.length by omega)
                      (show data.length ≤ _ + fuel by omega)
                    rw [again] at ran
                    simp only [Prod.mk.injEq, Except.ok.injEq] at ran
                    obtain ⟨⟨-, -, rfl⟩, -⟩ := ran
                    rcases leaves.dirty with same | dirty
                    · rw [same] at clean
                      contradiction
                    · rw [dirty] at clean
                      contradiction
      · exact still ran

/-- A write without faults to an inode of the table: what its rounds keep, and the inode that is
stored if they come to the end. -/
theorem fileWrite_rule {offset : UInt64} {data : List UInt8} {Q : Nat → NebulaInode → Prop}
    (rule : RoundRule offset data Q) {file : NebulaFile} {state : FsState}
    (ready : state.Ready uuid layout)
    (inside : file.inode.inodeNum.toNat < layout.inodePageBlockCount) (holds : Q 0 file.inode)
    (writable : file.flags &&& openWriteOnly ≠ 0) (some : data ≠ []) (now : UInt64) :
    ∃ stop n next middle, LoopLeaves file data.length Q stop n next ∧
      FsState.Ready uuid layout middle ∧ (next.dirty = false → KeepsBlocks layout state middle) ∧
      (stop ≠ none ∧ (∃ error, (nebulaFileWrite file offset data now).run state =
          (.ok (shortCount n error, next), middle)) ∨
        stop = none ∧ (nebulaFileWrite file offset data now).run state =
          (.ok (.ok n, ⟨next.inode.written (offset + UInt64.ofNat n) now, next.flags, false⟩),
            middle.withDisk (middle.disk.push [inodeWrite layout file.inode.inodeNum.toNat
              (next.inode.written (offset + UInt64.ofNat n) now)]))) := by
  obtain ⟨stop, n, next, middle, ran, leaves⟩ := fileWriteLoop_rule rule state holds (Nat.zero_le _)
    (show data.length ≤ 0 + data.length by omega)
  have ready' := ready_fileWriteLoop offset data data.length 0 file state ready
  rw [ran] at ready'
  refine ⟨stop, n, next, middle, leaves, ready',
    ready.fileWriteLoop_clean (by omega) ran, ?_⟩
  simp only [nebulaFileWrite, if_neg writable, if_neg some, run_bind_ok ran]
  cases stop with
  | some error => exact .inl ⟨by simp, error, rfl⟩
  | none =>
      refine .inr ⟨rfl, ?_⟩
      have number : ({ next.inode.grow (offset + UInt64.ofNat n) with
          mtimeNs := now } : NebulaInode).inodeNum = file.inode.inodeNum := by
        simp only [NebulaInode.grow]
        split_ifs <;> rw [leaves.rest]
      obtain ⟨after, idles, stored | ⟨bad, -⟩⟩ := ready'.placed.inodeWrite_spec
        (show ({ next.inode.grow (offset + UInt64.ofNat n) with
          mtimeNs := now } : NebulaInode).inodeNum.toNat < _ by rw [number]; exact inside)
      · rw [idles.eq ready'.faultFree] at stored
        rw [run_bind_ok stored, run_pure, number]
        rfl
      · exact absurd bad (FsState.not_faulty ready'.faultFree)

end Ready

theorem NebulaInode.written_extents (inode : NebulaInode) (reach now : UInt64) :
    (inode.written reach now).extents = inode.extents := by
  simp only [NebulaInode.written, NebulaInode.seal, NebulaInode.grow]
  split_ifs <;> rfl

theorem NebulaInode.written_type (inode : NebulaInode) (reach now : UInt64) :
    (inode.written reach now).type = inode.type := by
  simp only [NebulaInode.written, NebulaInode.seal, NebulaInode.grow]
  split_ifs <;> rfl

theorem NebulaInode.written_valid (inode : NebulaInode) (reach now : UInt64) :
    (inode.written reach now).Valid := NebulaInode.seal_valid _

theorem NebulaInode.written_inodeNum (inode : NebulaInode) (reach now : UInt64) :
    (inode.written reach now).inodeNum = inode.inodeNum := by
  simp only [NebulaInode.written, NebulaInode.seal, NebulaInode.grow]
  split_ifs <;> rfl

section Room

variable {uuid : Bytes 16} {layout : NebulaLayout} {state : FsState}

/-- A block without an extent gets one where a run is free and the table has an empty entry. -/
theorem planMap_free {capacity : Nat} {used : Nat → Bool} {inode : NebulaInode} {blk need run : Nat}
    (positive : 0 < need) (unknown : extentFind inode blk = none) (free : FreeRun used need run)
    (inside : run + need ≤ capacity) {slot : Fin 248}
    (empty : (inode.extents slot).sizeBlocks = 0) :
    ∃ lba inode', lba ≤ run ∧ FreeRun used need lba ∧
      extentAppend inode blk need lba = some inode' ∧
      planMap capacity used inode blk need =
        some ((fun block => decide (lba ≤ block ∧ block < lba + need) || used block), inode') := by
  obtain ⟨lba, before, found⟩ := firstRun_before positive free inside
  obtain ⟨first, -, -⟩ := firstRun_eq_some positive found
  rw [planMap, unknown, found]
  cases appended : extentAppend inode blk need lba with
  | none => exact absurd empty (extentAppend_eq_none.mp appended slot)
  | some inode' => exact ⟨lba, inode', before, first, appended, by simp [appended]⟩

theorem writePlan_done (capacity fuel : Nat) (used : Nat → Bool) (inode : NebulaInode)
    (curOff : Nat) : writePlan capacity fuel used inode curOff 0 = (0, inode) := by
  cases fuel <;> simp [writePlan]

theorem writePlan_round {capacity fuel n curOff left : Nat} {used used' : Nat → Bool}
    {inode inode' last : NebulaInode} (some : 0 < left)
    (mapped : planMap capacity used inode (curOff / 4096) (needBlks left (curOff % 4096)) =
      Option.some (used', inode'))
    (rest : writePlan capacity fuel used' inode' (curOff + blockPart curOff left)
      (left - blockPart curOff left) = (n, last)) :
    writePlan capacity (fuel + 1) used inode curOff left = (blockPart curOff left + n, last) := by
  rw [writePlan, if_neg some.ne']
  simp only [mapped, rest]

/-- A write that is planned to the end comes to it. -/
theorem fileWrite_planned {file : NebulaFile} (solid : state.Solid uuid layout)
    (backs : state.Backs layout file.inode)
    (inside : file.inode.inodeNum.toNat < layout.inodePageBlockCount)
    (writable : file.flags &&& openWriteOnly ≠ 0) {offset : UInt64} {data : List UInt8}
    (some : data ≠ []) (unwrapped : offset.toNat + data.length < 2 ^ 64) (now : UInt64)
    {inode : NebulaInode} (planned : writePlan layout.capacityBlocks data.length state.taken
      file.inode offset.toNat data.length = (data.length, inode)) :
    ∃ after, (nebulaFileWrite file offset data now).run state = (.ok (.ok data.length,
        ⟨inode.written (offset + UInt64.ofNat data.length) now, file.flags, false⟩), after) ∧
      after.Solid uuid layout ∧
      after.Backs layout (inode.written (offset + UInt64.ofNat data.length) now) ∧
      ∀ lba, after.taken lba = true ↔ state.taken lba = true ∨ inode.Holds lba := by
  obtain ⟨stop, n, next, middle, ends, flags, -, plan, ended⟩ := fileWrite_spec solid backs inside
    writable offset some now
  have most := ends.most
  have same := (plan.exact (by omega)).trans planned
  simp only [Prod.mk.injEq] at same
  obtain ⟨rfl, rfl⟩ := same
  rcases ended with ⟨less, -⟩ | ⟨-, ran⟩
  · omega
  have sound := solid.sound
  have stream := sound.streamMap_eq
  have inodeEq := sound.inode_eq
  have apart : ∀ write ∈ [inodeWrite layout file.inode.inodeNum.toNat
      (next.inode.written (offset + UInt64.ofNat data.length) now)], ¬ InBitmap layout write.1 := by
    simp only [List.mem_singleton, forall_eq, InBitmap, inodeWrite]
    omega
  have backed := ends.grown.backs backs
  have holds : ∀ lba, (next.inode.written (offset + UInt64.ofNat data.length) now).Holds lba ↔
      next.inode.Holds lba := by
    intro lba
    rw [NebulaInode.Holds, NebulaInode.Holds, NebulaInode.written_extents]
  refine ⟨_, by rw [ran, flags], ends.grown.solid.push apart, ⟨backed.guarded, ?_, ?_, ?_⟩,
    ends.grown.taken⟩
  · exact ⟨by rw [NebulaInode.written_extents]; exact backed.mapped.filled,
      by rw [NebulaInode.written_extents]; exact backed.mapped.bounded,
      by rw [NebulaInode.written_extents]; exact backed.mapped.disjoint⟩
  · exact fun lba held => backed.taken lba ((holds lba).mp held)
  · exact fun lba held => backed.inData lba ((holds lba).mp held)

/-- The plan of a write of part of a block that has no extent, where a block is free and the
table has an empty entry. -/
theorem writePlan_hole {inode : NebulaInode} {used : Nat → Bool} {capacity offset len run : Nat}
    (positive : 0 < len) (fits : offset % 4096 + len ≤ 4096)
    (unknown : extentFind inode (offset / 4096) = none) (free : used run = false)
    (room : run < capacity) {slot : Fin 248} (empty : (inode.extents slot).sizeBlocks = 0) :
    ∃ lba inode', lba ≤ run ∧ FreeRun used 1 lba ∧
      extentAppend inode (offset / 4096) 1 lba = some inode' ∧
      writePlan capacity len used inode offset len = (len, inode') := by
  have need : needBlks len (offset % 4096) = 1 := by
    simp only [needBlks]
    split_ifs <;> omega
  have part : blockPart offset len = len := by
    simp only [blockPart]
    omega
  obtain ⟨lba, inode', low, clear, appended, mapped⟩ := @planMap_free capacity _ _ _ _ _ Nat.one_pos
    unknown (freeRun_one free) room slot empty
  refine ⟨lba, inode', low, clear, appended, ?_⟩
  obtain ⟨fuel, length⟩ := Nat.exists_eq_add_one_of_ne_zero positive.ne'
  rw [← need] at mapped
  have round := @writePlan_round capacity fuel 0 _ _ _ _ _ _ _ positive mapped
    (by rw [part, Nat.sub_self]; exact writePlan_done _ _ _ _ _)
  rwa [part, ← length] at round

/-- The plan of a write of part of a block that has an extent. -/
theorem writePlan_known {inode : NebulaInode} {used : Nat → Bool} {capacity fuel offset len : Nat}
    {index : Fin 248} (positive : 0 < len) (fits : offset % 4096 + len ≤ 4096)
    (known : extentFind inode (offset / 4096) = some index) :
    writePlan capacity (fuel + 1) used inode offset len = (len, inode) := by
  have part : blockPart offset len = len := by
    simp only [blockPart]
    omega
  have stays : planMap capacity used inode (offset / 4096) (needBlks len (offset % 4096)) =
      some (used, inode) := by rw [planMap, known]
  have round := @writePlan_round capacity fuel 0 _ _ _ _ _ _ _ positive stays
    (by rw [part, Nat.sub_self]; exact writePlan_done _ _ _ _ _)
  rwa [part] at round

/-- A write of part of a block that has no extent, where a block is free and the table has an empty
entry. -/
theorem fileWrite_hole {file : NebulaFile} (solid : state.Solid uuid layout)
    (backs : state.Backs layout file.inode)
    (inside : file.inode.inodeNum.toNat < layout.inodePageBlockCount)
    (writable : file.flags &&& openWriteOnly ≠ 0) {offset : UInt64} {data : List UInt8}
    (some : data ≠ []) (fits : offset.toNat % 4096 + data.length ≤ 4096)
    (unwrapped : offset.toNat + data.length < 2 ^ 64) (now : UInt64)
    (unknown : extentFind file.inode (offset.toNat / 4096) = none) {run : Nat}
    (free : state.taken run = false) (room : run < layout.capacityBlocks) {slot : Fin 248}
    (empty : (file.inode.extents slot).sizeBlocks = 0) :
    ∃ lba inode after, extentAppend file.inode (offset.toNat / 4096) 1 lba = Option.some inode ∧
      (nebulaFileWrite file offset data now).run state = (.ok (.ok data.length,
        ⟨inode.written (offset + UInt64.ofNat data.length) now, file.flags, false⟩), after) ∧
      after.Solid uuid layout ∧
      after.Backs layout (inode.written (offset + UInt64.ofNat data.length) now) ∧
      ∀ block, run < block → after.taken block = state.taken block := by
  obtain ⟨lba, inode, low, clear, appended, planned⟩ := @writePlan_hole _ state.taken
    layout.capacityBlocks _ _ _ (List.length_pos_iff.mpr some) fits unknown free room slot empty
  obtain ⟨after, ran, solid', backs', taken⟩ := fileWrite_planned solid backs inside writable some
    unwrapped now planned
  refine ⟨lba, inode, after, appended, ran, solid', backs', fun block past => ?_⟩
  have bound := offset.toNat_lt
  have small := solid.small
  have added := backs.mapped.append (show offset.toNat / 4096 < 2 ^ 53 by omega) (by decide)
    Nat.one_pos (show lba < 2 ^ 32 by omega) (fun index below holds => by
      have used := backs.taken _ holds
      rw [clear index below] at used
      contradiction) appended
  rw [Bool.eq_iff_iff, taken, added.holds]
  constructor
  · rintro (used | held | ⟨-, above⟩)
    · exact used
    · exact backs.taken block held
    · omega
  · exact .inl

/-- A write of part of a block that has an extent. -/
theorem fileWrite_known {file : NebulaFile} (solid : state.Solid uuid layout)
    (backs : state.Backs layout file.inode)
    (inside : file.inode.inodeNum.toNat < layout.inodePageBlockCount)
    (writable : file.flags &&& openWriteOnly ≠ 0) {offset : UInt64} {data : List UInt8}
    (some : data ≠ []) (fits : offset.toNat % 4096 + data.length ≤ 4096)
    (unwrapped : offset.toNat + data.length < 2 ^ 64) (now : UInt64) {index : Fin 248}
    (known : extentFind file.inode (offset.toNat / 4096) = Option.some index) :
    ∃ after, (nebulaFileWrite file offset data now).run state = (.ok (.ok data.length,
      ⟨file.inode.written (offset + UInt64.ofNat data.length) now, file.flags, false⟩), after) := by
  have positive := List.length_pos_iff.mpr some
  obtain ⟨fuel, length⟩ := Nat.exists_eq_add_one_of_ne_zero positive.ne'
  have planned :=
    @writePlan_known _ state.taken layout.capacityBlocks fuel _ _ _ positive fits known
  rw [← length] at planned
  obtain ⟨after, wrote, -⟩ :=
    fileWrite_planned solid backs inside writable some unwrapped now planned
  exact ⟨after, wrote⟩

/-- The handle that `nebula_file_create` returns. -/
def createdFile (number : Nat) (mode : UInt32) (now : UInt64) : NebulaFile where
  inode := freshInode number inodeTypeFile mode now
  flags := openReadWrite
  dirty := false

theorem createdFile_extents (number : Nat) (mode : UInt32) (now : UInt64) (index : Fin 248) :
    (createdFile number mode now).inode.extents index = .zero := rfl

theorem createdFile_backs
    (guarded : ∀ lba < layout.capacityBlocks, lbaIsMetadata layout lba = true →
      state.taken lba = true)
    (number : Nat) (mode : UInt32) (now : UInt64) :
    state.Backs layout (createdFile number mode now).inode := by
  obtain ⟨mapped, nothing, -⟩ := NebulaInode.mapped_of_empty (createdFile_extents number mode now)
  exact ⟨guarded, mapped, fun lba holds => absurd holds (nothing lba),
    fun lba holds => absurd holds (nothing lba)⟩

/-- The first file of a device, its handle just created. -/
structure FirstFile (layout : NebulaLayout) (number : Nat) (state : FsState) : Prop where
  exact : state.toVolume.Exact plainOptions.uuid layout
  faultFree : state.faults = []
  backs : state.Backs layout (createdFile number 0 0).inode
  inside : (createdFile number 0 0).inode.inodeNum.toNat < layout.inodePageBlockCount
  stored : inodeAt layout state.disk (createdFile number 0 0).inode.inodeNum.toNat =
    (createdFile number 0 0).inode
  free : ∀ lba, layout.dataStartLba ≤ lba → lba < layout.allocRootsTailLba → state.taken lba = false

/-- A file is created on a fresh device. -/
theorem plainDisk_created {capacityBlocks : Nat} (large : 65536 ≤ capacityBlocks)
    (bound : capacityBlocks < 2 ^ 52) (small : capacityBlocks ≤ 2 ^ 46) :
    ∃ layout mount number state, layout.capacityBlocks = capacityBlocks ∧
      nebulaMountDo (fun _ => zeroBlock) (plainDisk capacityBlocks bound) = .ok mount ∧
      (nebulaFileCreate 0 0).run ⟨⟨plainDisk capacityBlocks bound, mount⟩, []⟩ =
        (.ok (createdFile number 0 0), state) ∧ FirstFile layout number state := by
  obtain ⟨layout, mount, -, mounts, exact, formatted, total, bits⟩ :=
    plainDisk_mounted large bound (small.trans (by decide))
  generalize plainDisk capacityBlocks bound = disk at mounts exact formatted
  have faultFree : (⟨⟨disk, mount⟩, []⟩ : FsState).faults = [] := rfl
  have ready : FsState.Ready plainOptions.uuid layout ⟨⟨disk, mount⟩, []⟩ :=
    ⟨⟨exact.sound, exact.capacity, exact.sb⟩, faultFree⟩
  have sound := exact.sound
  have tail := sound.allocRootsTail_eq
  have stream := sound.streamMap_eq
  have inodeEq := sound.inode_eq
  have many := sound.inodeCount_ge
  have few := sound.inodeCount_le
  obtain ⟨after, idles, ⟨number, positive, inside, -, ran | ⟨bad, -⟩⟩ |
    ⟨error, -, bad | ⟨-, full⟩⟩⟩ :=
    ready.placed.fileCreate_spec 0 0
  · rw [idles.eq faultFree] at ran
    have same : (createdFile number 0 0).inode.inodeNum.toNat = number := by
      show (UInt64.ofNat number).toNat = number
      rw [UInt64.toNat_ofNat', Nat.mod_eq_of_lt (by omega)]
    refine ⟨layout, mount, number, _, total, mounts, ran, FsState.exact_push exact ?_, faultFree,
      createdFile_backs ?_ _ _ _, ?_, ?_, ?_⟩
    · simp only [List.mem_singleton, forall_eq, InBitmap, inodeWrite]
      omega
    · exact fun lba below metadata => (bits lba below).trans metadata
    · rw [same]
      exact inside
    · rw [same, FsState.disk_withDisk, inodeAt_store, if_pos rfl]
      rfl
    · intro lba low high
      exact (bits lba (by omega)).trans (lbaIsMetadata_data low high)
  · exact absurd bad (FsState.not_faulty faultFree)
  · exact absurd bad (FsState.not_faulty faultFree)
  · refine absurd ?_ (full 1 Nat.one_pos (by omega))
    rw [formatted.inodeAt_eq (by omega)]
    rfl

theorem FirstFile.solid {layout : NebulaLayout} {number : Nat} {state : FsState}
    (first : FirstFile layout number state) (small : layout.capacityBlocks ≤ 2 ^ 32) :
    state.Solid plainOptions.uuid layout :=
  ⟨first.exact, small, first.faultFree⟩

theorem createdFile_hole (number : Nat) (mode : UInt32) (now : UInt64) (blk : Nat) :
    extentFind (createdFile number mode now).inode blk = none := by
  obtain ⟨-, -, holes⟩ := NebulaInode.mapped_of_empty (createdFile_extents number mode now)
  exact Option.map_eq_none_iff.mp (holes blk)

/-- A byte is written to the first file, anywhere. -/
theorem FirstFile.write_byte {layout : NebulaLayout} {number : Nat} {state : FsState}
    (first : FirstFile layout number state) (small : layout.capacityBlocks ≤ 2 ^ 32)
    (offset : UInt64) (unwrapped : offset.toNat + 1 < 2 ^ 64) (byte : UInt8) (now : UInt64) :
    ∃ lba inode after,
      extentAppend (createdFile number 0 0).inode (offset.toNat / 4096) 1 lba = some inode ∧
      (nebulaFileWrite (createdFile number 0 0) offset [byte] now).run state =
        (.ok (.ok 1, ⟨inode.written (offset + 1) now, openReadWrite, false⟩), after) ∧
      after.Solid plainOptions.uuid layout ∧ after.Backs layout (inode.written (offset + 1) now) ∧
      ∀ lba, layout.dataStartLba < lba → lba < layout.allocRootsTailLba →
        after.taken lba = false := by
  have room := first.exact.sound.data_room
  have tail := first.exact.sound.allocRootsTail_eq
  obtain ⟨lba, inode, after, appended, wrote, solid, backs, taken⟩ := @fileWrite_hole _ _ _
    (createdFile number 0 0) (first.solid small) first.backs first.inside
    (show openReadWrite &&& openWriteOnly ≠ 0 by decide) offset [byte] (by simp)
    (by rw [List.length_singleton]; omega) unwrapped now (createdFile_hole _ _ _ _)
    layout.dataStartLba (first.free _ le_rfl (by omega)) (by omega) 0
    (by rw [createdFile_extents]; decide)
  refine ⟨lba, inode, after, appended, wrote, solid, backs, fun block low high => ?_⟩
  rw [taken block low, first.free block low.le high]

end Room

/-! ## Runs of writes -/

/-- Writes through one handle, one after the other. -/
inductive WriteRun (Allowed : FsState → NebulaFile → UInt64 → List UInt8 → Prop) (file : NebulaFile)
    (state : FsState) : NebulaFile → FsState → Prop
  | nil : WriteRun Allowed file state file state
  | write {file₁ file₂ : NebulaFile} {state₁ state₂ : FsState} {offset : UInt64}
      {data : List UInt8} {now : UInt64} {result : Except Errno Nat}
      (run : WriteRun Allowed file state file₁ state₁) (allowed : Allowed state₁ file₁ offset data)
      (wrote : (nebulaFileWrite file₁ offset data now).run state₁ = (.ok (result, file₂), state₂)) :
      WriteRun Allowed file state file₂ state₂

/-- No run of so many blocks is free, or the count says that there are not so many. -/
def FsState.NoRun (state : FsState) (n : Nat) : Prop :=
  state.mount.bitmap.l2TotalFree.toNat < n ∨
    firstRun state.taken n (searchedBits state.mount) = none

/-- A write that is turned away: the handle is not writable, or the first block has no extent and
there is no room for one. -/
def Refused (state : FsState) (file : NebulaFile) (offset : UInt64) (data : List UInt8) : Prop :=
  file.flags &&& openWriteOnly = 0 ∨
    data ≠ [] ∧ extentFind file.inode (offset.toNat / 4096) = none ∧
      (state.NoRun (needBlks data.length (offset.toNat % 4096)) ∨
        ∀ index, (file.inode.extents index).sizeBlocks ≠ 0)

section Refusal

variable {uuid : Bytes 16} {layout : NebulaLayout} {state : FsState}

/-- Without a run there is no allocation. -/
theorem FsState.Ready.noRun (ready : state.Ready uuid layout) {n lba : Nat} {after : FsState}
    (room : (blockAlloc n).run state = (.ok lba, after)) : ¬ state.NoRun n := by
  have same := (FsState.next_idles state state.mount.sb.bitmapLba.toNat).eq ready.faultFree
  simp only [blockAlloc, run_of] at room
  generalize state.next state.mount.sb.bitmapLba.toNat = requested at same room
  obtain ⟨outcome, before⟩ := requested
  obtain rfl : before = state := same
  have result := nebulaBlockAlloc_result outcome before.disk before.mount n
  generalize nebulaBlockAlloc outcome before.disk before.mount n = done at result room
  cases result with
  | error error start part sub inside => simp at room
  | ok start positive free inside least enough =>
      rintro (few | none)
      · omega
      · exact firstRun_eq_none positive none start inside free

/-- A refused write fails and leaves the handle as it was, and of the device all but the bitmap. -/
theorem FsState.Ready.refusal (ready : state.Ready uuid layout) {file next : NebulaFile}
    {after : FsState} {offset now : UInt64} {data : List UInt8} {result : Except Errno Nat}
    (refused : Refused state file offset data)
    (wrote : (nebulaFileWrite file offset data now).run state = (.ok (result, next), after)) :
    (∃ error, result = .error error) ∧ next = file ∧ after.Ready uuid layout ∧
      KeepsBlocks layout state after := by
  by_cases writable : file.flags &&& openWriteOnly = 0
  · rw [fileWrite_refused writable] at wrote
    cases wrote
    exact ⟨⟨_, rfl⟩, rfl, ready, fun _ _ => rfl⟩
  obtain ⟨some, unknown, full⟩ := refused.resolve_left writable
  obtain ⟨fuel, length⟩ := Nat.exists_eq_add_one_of_ne_zero (List.length_pos_iff.mpr some).ne'
  have bound := offset.toNat_lt
  obtain ⟨⟨answer, next'⟩, middle, ran, mapped⟩ := fileWriteMap_result file (offset.toNat / 4096)
    (offset.toNat % 4096) data.length state
  have failed : ∃ error, answer = .error error ∧ file = next' := by
    cases mapped with
    | failed error => exact ⟨error, rfl, rfl⟩
    | found known =>
        rw [unknown] at known
        contradiction
    | added _ allocated appended =>
        rcases full with none | full
        · exact absurd none (ready.noRun allocated)
        · rw [extentAppend_eq_none.mpr full] at appended
          contradiction
  obtain ⟨error, rfl, rfl⟩ := failed
  have loop : (fileWriteLoop offset data data.length 0 file).run state =
      (.ok (Option.some error, 0, file), middle) := by
    rw [length, fileWriteLoop, if_pos (by omega), Nat.add_zero, Nat.mod_eq_of_lt bound,
      Nat.sub_zero]
    rw [run_bind_ok ran, run_pure]
  have kept := ready_fileWriteMap file (offset.toNat / 4096) (offset.toNat % 4096) data.length state
    ready
  rw [ran] at kept
  have writes := ready.fileWriteMap_failed ran
  simp only [nebulaFileWrite, if_neg writable, if_neg some, run_bind_ok loop, run_pure] at wrote
  cases wrote
  exact ⟨⟨error, rfl⟩, rfl, kept, writes⟩

end Refusal

end MiniFs
