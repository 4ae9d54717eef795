import MiniFs.Fs.Dir
import MiniFs.Fs.Placed

/-!
# Directory scans

What the directory functions do on a formatted device, whatever requests fail: a scan sees the slots
in order, and the functions change one slot and the header.
-/

namespace MiniFs

open Fs

/-- The entry stored in a slot. -/
def slotAt (layout : NebulaLayout) (disk : Disk) (slot : Nat) : DirEntry :=
  dirBlockLayout.symm (disk.content (layout.dirPageLba + 1 + slot / 4)) (slotWithinBlock slot)

/-- The stored directory header. -/
def dirHeaderAt (layout : NebulaLayout) (disk : Disk) : DirPageHeader :=
  DirPageHeader.layout.symm (disk.content layout.dirPageLba)

/-- The number of slots. -/
def slotCount (layout : NebulaLayout) : Nat := (layout.dirPageBlockCount - 1) * 4

section Pure

variable {α β : Type} {slots : Nat → DirEntry} {name : Name}

/-- A scan of a slot array. -/
def scanSlots (visit : Nat → DirEntry → α → ScanStep α β) (slots : Nat → DirEntry) :
    Nat → Nat → α → ScanStep α (β × Nat)
  | 0, _, carry => .next carry
  | remaining + 1, slot, carry =>
      match visit slot (slots slot) carry with
      | .found value => .found (value, slot)
      | .next carry => scanSlots visit slots remaining (slot + 1) carry

/-- The slot holds the name. -/
def HoldsName (slots : Nat → DirEntry) (name : Name) (slot : Nat) : Prop :=
  (slots slot).used = true ∧ (slots slot).matches name = true

/-- The first slot that holds the name. -/
structure FirstNamed (slots : Nat → DirEntry) (name : Name) (slot : Nat) : Prop where
  holds : HoldsName slots name slot
  least : ∀ earlier < slot, ¬ HoldsName slots name earlier

theorem FirstNamed.unique {slots : Nat → DirEntry} {name : Name} {slot slot' : Nat}
    (first : FirstNamed slots name slot) (first' : FirstNamed slots name slot') : slot = slot' := by
  rcases Nat.lt_trichotomy slot slot' with less | same | more
  · exact absurd first.holds (first'.least slot less)
  · exact same
  · exact absurd first'.holds (first.least slot' more)

theorem scanSlots_find (remaining : Nat) {slot : Nat}
    (before : ∀ earlier < slot, ¬ HoldsName slots name earlier) :
    match scanSlots (findVisit name) slots remaining slot () with
    | .found ((index, entry), found) => index = found ∧ entry = slots found ∧
        found < slot + remaining ∧ FirstNamed slots name found
    | .next _ => ∀ index < slot + remaining, ¬ HoldsName slots name index := by
  induction remaining generalizing slot with
  | zero => exact before
  | succ remaining ih =>
      simp only [scanSlots, findVisit]
      by_cases here : HoldsName slots name slot
      · simp only [here.1, here.2, if_true]
        exact ⟨trivial, trivial, by omega, here, before⟩
      · have onwards := @ih (slot + 1) fun earlier below => by
          rcases Nat.lt_or_ge earlier slot with less | last
          · exact before earlier less
          · rwa [show earlier = slot by omega]
        rw [show slot + 1 + remaining = slot + (remaining + 1) by omega] at onwards
        by_cases used : (slots slot).used = true
        · have other : ¬ (slots slot).matches name = true := fun same => here ⟨used, same⟩
          simp only [used, if_true, other]
          exact onwards
        · simp only [used]
          exact onwards

/-- The first unused slot from a slot on. -/
structure FirstUnused (slots : Nat → DirEntry) (slot : Nat) : Prop where
  unused : (slots slot).used = false
  least : ∀ earlier < slot, (slots earlier).used = true

/-- The free slot a scan has seen so far. -/
def FreeSeen (slots : Nat → DirEntry) (slot : Nat) : Option Nat → Prop
  | none => ∀ earlier < slot, (slots earlier).used = true
  | some free => free < slot ∧ FirstUnused slots free

theorem scanSlots_add (remaining : Nat) {slot : Nat} {free : Option Nat}
    (seen : FreeSeen slots slot free)
    (before : ∀ earlier < slot, ¬ HoldsName slots name earlier) :
    match scanSlots (addVisit name) slots remaining slot free with
    | .found _ => ∃ index < slot + remaining, HoldsName slots name index
    | .next free => FreeSeen slots (slot + remaining) free ∧
        ∀ index < slot + remaining, ¬ HoldsName slots name index := by
  induction remaining generalizing slot free with
  | zero => exact ⟨seen, before⟩
  | succ remaining ih =>
      simp only [scanSlots, addVisit]
      by_cases here : HoldsName slots name slot
      · simp only [here.1, here.2, if_true]
        exact ⟨slot, by omega, here⟩
      · have without : ∀ earlier < slot + 1, ¬ HoldsName slots name earlier := by
          intro earlier below
          rcases Nat.lt_or_ge earlier slot with less | last
          · exact before earlier less
          · rwa [show earlier = slot by omega]
        rw [show slot + (remaining + 1) = slot + 1 + remaining by omega]
        by_cases used : (slots slot).used = true
        · have other : ¬ (slots slot).matches name = true := fun same => here ⟨used, same⟩
          simp only [used, if_true, other]
          refine ih ?_ without
          cases free with
          | none =>
              intro earlier below
              rcases Nat.lt_or_ge earlier slot with less | last
              · exact seen earlier less
              · rwa [show earlier = slot by omega]
          | some index => exact ⟨Nat.lt_succ_of_lt seen.1, seen.2⟩
        · simp only [used]
          refine ih ?_ without
          cases free with
          | none => exact ⟨Nat.lt_succ_self slot, by simpa using used, seen⟩
          | some index => exact ⟨Nat.lt_succ_of_lt seen.1, seen.2⟩

/-- What a listing reports of a slot. -/
def listedItem (entry : DirEntry) : Option DirItem :=
  if entry.used then some ⟨entry.listedName, entry.inodeNum, entry.flags⟩ else none

theorem scanSlots_list (remaining slot : Nat) (items : List DirItem) :
    scanSlots listVisit slots remaining slot items =
      .next (items ++ ((List.range remaining).map (slot + ·)).filterMap
        fun index => listedItem (slots index)) := by
  induction remaining generalizing slot items with
  | zero => simp [scanSlots]
  | succ remaining ih =>
      have shift : (List.range (remaining + 1)).map (slot + ·) =
          slot :: (List.range remaining).map (slot + 1 + ·) := by
        rw [List.range_succ_eq_map, List.map_cons, List.map_map, Nat.add_zero]
        congr 1
        apply List.map_congr_left
        intro index _
        simp only [Function.comp_apply]
        omega
      rw [shift, List.filterMap_cons]
      simp only [scanSlots, listVisit, listedItem]
      by_cases used : (slots slot).used = true
      · simp only [used, if_true]
        rw [ih, List.append_assoc]
        rfl
      · simp only [used]
        exact ih _ _

end Pure

/-- The block a scan has at hand is the one on the device. -/
def CursorOk (disk : Disk) (cursor : Option (Nat × Block)) : Prop :=
  ∀ last block, cursor = some (last, block) → block = disk.content last

namespace FsState.Placed

variable {uuid : Bytes 16} {layout : NebulaLayout} {state : FsState} {α β : Type}

theorem dirCapacity_eq (placed : state.Placed uuid layout) :
    dirCapacity state.mount = slotCount layout := by
  have sound := placed.sound
  have some := sound.inodeCount_ge
  have few := sound.inodeCount_le
  have same := sound.dirCount_eq
  have count := placed.records.dirPageBlockCount
  have one : (state.mount.sb.dirPageBlockCount - 1).toNat = layout.dirPageBlockCount - 1 := by
    rw [UInt64.toNat_sub_of_le _ _ (by rw [UInt64.le_iff_toNat_le, count]; simp; omega), count]
    rfl
  rw [dirCapacity, slotCount, UInt64.toNat_mul, one]
  exact Nat.mod_eq_of_lt (by simp; omega)

theorem slotLba_eq (placed : state.Placed uuid layout) {slot : Nat}
    (inside : slot < slotCount layout) :
    slotLba state.mount slot = layout.dirPageLba + 1 + slot / 4 ∧
      layout.dirPageLba + 1 + slot / 4 < layout.dataStartLba := by
  have sound := placed.sound
  have bound := placed.capacity_lt
  have data := sound.dataStart_eq
  have room := sound.data_room
  have tail := sound.allocRootsTail_eq
  rw [slotCount] at inside
  rw [slotLba, placed.records.dirPageLba]
  omega

theorem data_lt (placed : state.Placed uuid layout) :
    layout.dataStartLba < layout.capacityBlocks := by
  have room := placed.sound.data_room
  have tail := placed.sound.allocRootsTail_eq
  omega

theorem dirFetch_spec (placed : state.Placed uuid layout) {lba : Nat}
    (inside : lba < layout.capacityBlocks) (apart : lba ≠ layout.dirPageLba)
    {cursor : Option (Nat × Block)} (cursorOk : CursorOk state.disk cursor) :
    ∃ after, Idles state after ∧
      ((dirFetch lba cursor).run state = (.ok (state.disk.content lba), after) ∨
        state.Faulty layout ∧ (dirFetch lba cursor).run state = (.error Errno.EIO, after)) := by
  have reads : ∃ after, Idles state after ∧
      ((ioRead lba).run state = (.ok (state.disk.content lba), after) ∨
        state.Faulty layout ∧ (ioRead lba).run state = (.error Errno.EIO, after)) := by
    obtain ⟨after, idles, done | ⟨⟨fails, member, bad⟩, failed⟩⟩ := placed.ioRead_spec inside
    · exact ⟨after, idles, .inl done⟩
    · exact ⟨after, idles, .inr ⟨⟨fails, member, _, apart, bad⟩, failed⟩⟩
  cases cursor with
  | none => exact reads
  | some held =>
      obtain ⟨last, block⟩ := held
      simp only [dirFetch]
      split_ifs with same
      · exact ⟨state, .refl _, .inl (by rw [run_pure, same, cursorOk last block rfl])⟩
      · exact reads

theorem cursorOk_none (disk : Disk) : CursorOk disk none := by
  intro last block same
  contradiction

/-- A scan of the device is a scan of its slots, unless a request fails. -/
theorem dirScan_spec (placed : state.Placed uuid layout)
    (visit : Nat → DirEntry → α → ScanStep α β) {remaining slot : Nat}
    (inside : slot + remaining ≤ slotCount layout) {cursor : Option (Nat × Block)}
    (cursorOk : CursorOk state.disk cursor) (carry : α) :
    ∃ after, Idles state after ∧
      ((∃ value found, scanSlots visit (slotAt layout state.disk) remaining slot carry =
            .found (value, found) ∧ found < slotCount layout ∧
          (dirScan visit remaining slot cursor carry).run state =
            (.ok (.found value (layout.dirPageLba + 1 + found / 4)
              (state.disk.content (layout.dirPageLba + 1 + found / 4))), after)) ∨
        (∃ last cursor', scanSlots visit (slotAt layout state.disk) remaining slot carry =
          .next last ∧ CursorOk state.disk cursor' ∧
          (dirScan visit remaining slot cursor carry).run state =
            (.ok (.done last cursor'), after)) ∨
        state.Faulty layout ∧
          (dirScan visit remaining slot cursor carry).run state = (.error Errno.EIO, after)) := by
  induction remaining generalizing slot cursor carry state with
  | zero => exact ⟨state, .refl _, .inr (.inl ⟨carry, cursor, rfl, cursorOk, rfl⟩)⟩
  | succ remaining ih =>
      obtain ⟨lba, below⟩ := placed.slotLba_eq (show slot < slotCount layout by omega)
      simp only [dirScan, run_mount_bind, lba]
      obtain ⟨after, idles, done | ⟨faulty, failed⟩⟩ :=
        placed.dirFetch_spec (below.trans placed.data_lt) (by omega) cursorOk
      · simp only [run_bind_ok done, scanSlots]
        have entry : dirBlockLayout.symm (state.disk.content (layout.dirPageLba + 1 + slot / 4))
            (slotWithinBlock slot) = slotAt layout state.disk slot := rfl
        rw [entry]
        cases visited : visit slot (slotAt layout state.disk slot) carry with
        | found value =>
            exact ⟨after, idles, .inl ⟨value, slot, rfl, by omega, run_pure _ _⟩⟩
        | next carry' =>
            have held : CursorOk after.disk (some (layout.dirPageLba + 1 + slot / 4,
                state.disk.content (layout.dirPageLba + 1 + slot / 4))) := by
              intro last block same
              rw [Option.some.injEq, Prod.mk.injEq] at same
              rw [← same.1, ← same.2, idles.disk]
            obtain ⟨last, idles', result⟩ := ih (placed.of_volume idles.volume)
              (show slot + 1 + remaining ≤ slotCount layout by omega) held carry'
            rw [idles.disk] at result
            refine ⟨last, idles.trans idles', ?_⟩
            rcases result with stopped | ended | ⟨faulty, failed⟩
            · exact .inl stopped
            · exact .inr (.inl ended)
            · exact .inr (.inr ⟨idles.faulty faulty, failed⟩)
      · exact ⟨after, idles, .inr (.inr ⟨faulty, run_bind_error failed⟩)⟩

end FsState.Placed

/-- Some request to the directory header is to fail. -/
def FsState.HeaderFaulty (layout : NebulaLayout) (state : FsState) : Prop :=
  ∃ fails ∈ state.faults, fails layout.dirPageLba = true

theorem FsState.Idles.headerFaulty {layout : NebulaLayout} {before after : FsState}
    (idles : FsState.Idles before after) (faulty : after.HeaderFaulty layout) :
    before.HeaderFaulty layout := by
  obtain ⟨fails, member, bad⟩ := faulty
  exact ⟨fails, idles.faults.subset member, bad⟩

namespace FsState.Placed

variable {uuid : Bytes 16} {layout : NebulaLayout} {state : FsState}

theorem dirHeaderUpdate_spec (placed : state.Placed uuid layout) (delta : Int) :
    ∃ after, Idles state after ∧
      ((dirHeaderUpdate delta).run state =
          (.ok (), after.withDisk (state.disk.push [(layout.dirPageLba,
            DirPageHeader.layout ((dirHeaderAt layout state.disk).adjust delta))])) ∨
        state.HeaderFaulty layout ∧
          (dirHeaderUpdate delta).run state = (.error Errno.EIO, after)) := by
  have data := placed.sound.dataStart_eq
  have inside : layout.dirPageLba < layout.capacityBlocks := by
    have := placed.data_lt
    omega
  simp only [dirHeaderUpdate, run_mount_bind, placed.records.dirPageLba]
  obtain ⟨after, idles, done | ⟨faulty, failed⟩⟩ := placed.ioRead_spec inside
  · rw [run_bind_ok done]
    obtain ⟨last, idles', done' | ⟨faulty, failed⟩⟩ :=
      (placed.of_volume idles.volume).ioWrite_spec
        (DirPageHeader.layout ((dirHeaderAt layout state.disk).adjust delta)) inside
    · refine ⟨last, idles.trans idles', .inl ?_⟩
      rw [idles.disk] at done'
      exact done'
    · exact ⟨last, idles.trans idles', .inr ⟨idles.headerFaulty faulty, failed⟩⟩
  · exact ⟨after, idles, .inr ⟨faulty, run_bind_error failed⟩⟩

theorem dirLookup_spec (placed : state.Placed uuid layout) {name : Name}
    (short : name.length < dirNameMax) :
    ∃ after, Idles state after ∧
      ((∃ slot < slotCount layout, FirstNamed (slotAt layout state.disk) name slot ∧
          (nebulaDirLookup name).run state =
            (.ok (slotAt layout state.disk slot).inodeNum, after)) ∨
        (∀ slot < slotCount layout, ¬ HoldsName (slotAt layout state.disk) name slot) ∧
          (nebulaDirLookup name).run state = (.error .ENOENT, after) ∨
        state.Faulty layout ∧ (nebulaDirLookup name).run state = (.error Errno.EIO, after)) := by
  have pure := @scanSlots_find (slotAt layout state.disk) name (slotCount layout) 0 (by omega)
  simp only [nebulaDirLookup, if_neg (not_le.mpr short), run_mount_bind, placed.dirCapacity_eq]
  obtain ⟨after, idles, ⟨⟨index, entry⟩, found, scanned, inside, ran⟩ |
    ⟨last, cursor, scanned, -, ran⟩ |
    ⟨faulty, ran⟩⟩ := placed.dirScan_spec (findVisit name) (show 0 + slotCount layout ≤ _ by omega)
      (cursorOk_none _) ()
  · rw [scanned] at pure
    obtain ⟨-, rfl, -, first⟩ := pure
    exact ⟨after, idles, .inl ⟨found, inside, first, by rw [run_bind_ok ran]; rfl⟩⟩
  · rw [scanned] at pure
    simp only [Nat.zero_add] at pure
    exact ⟨after, idles, .inr (.inl ⟨pure, by rw [run_bind_ok ran]; rfl⟩)⟩
  · exact ⟨after, idles, .inr (.inr ⟨faulty, run_bind_error ran⟩)⟩

end FsState.Placed

/-- The block write that stores an entry in a slot. -/
def slotWrite (layout : NebulaLayout) (disk : Disk) (slot : Nat) (entry : DirEntry) : Nat × Block :=
  (layout.dirPageLba + 1 + slot / 4,
    setSlot (disk.content (layout.dirPageLba + 1 + slot / 4)) slot entry)

/-- The block write that adjusts the header. -/
def headerWrite (layout : NebulaLayout) (disk : Disk) (delta : Int) : Nat × Block :=
  (layout.dirPageLba, DirPageHeader.layout ((dirHeaderAt layout disk).adjust delta))

theorem Disk.push_push (disk : Disk) (first second : List (Nat × Block)) :
    (disk.push first).push second = disk.push (first ++ second) := by
  simp [Disk.push, WriteCache.push]

theorem dirHeaderAt_slotWrite (layout : NebulaLayout) (disk : Disk) (slot : Nat)
    (entry : DirEntry) :
    dirHeaderAt layout (disk.push [slotWrite layout disk slot entry]) =
      dirHeaderAt layout disk := by
  rw [dirHeaderAt, dirHeaderAt, Disk.content_push, applyWrites_of_not_mem]
  simp only [List.mem_singleton, forall_eq, slotWrite]
  omega

namespace FsState.Placed

variable {uuid : Bytes 16} {layout : NebulaLayout} {state : FsState}

/-- Storing an entry and adjusting the header: both, or neither, or only the entry. -/
theorem storeSlot_spec (placed : state.Placed uuid layout) {slot : Nat}
    (inside : slot < slotCount layout) (entry : DirEntry) (delta : Int) {program : Fs Unit}
    (steps : program = do
      ioWrite (layout.dirPageLba + 1 + slot / 4)
        (setSlot (state.disk.content (layout.dirPageLba + 1 + slot / 4)) slot entry)
      dirHeaderUpdate delta) :
    ∃ after, Idles state after ∧
      (program.run state = (.ok (), after.withDisk (state.disk.push
          [slotWrite layout state.disk slot entry, headerWrite layout state.disk delta])) ∨
        state.Faulty layout ∧ program.run state = (.error Errno.EIO, after) ∨
        state.HeaderFaulty layout ∧ program.run state = (.error Errno.EIO, after.withDisk
          (state.disk.push [slotWrite layout state.disk slot entry]))) := by
  subst steps
  have below := (placed.slotLba_eq inside).2.trans placed.data_lt
  obtain ⟨middle, idles, done | ⟨⟨fails, member, bad⟩, failed⟩⟩ := placed.ioWrite_spec
    (setSlot (state.disk.content (layout.dirPageLba + 1 + slot / 4)) slot entry) below
  · rw [run_bind_ok done]
    have placed' : (middle.withDisk (state.disk.push
        [slotWrite layout state.disk slot entry])).Placed uuid layout :=
      ⟨placed.sound, placed.capacity, (placed.of_volume idles.volume).sb⟩
    obtain ⟨after, idles', done' | ⟨faulty, failed⟩⟩ := placed'.dirHeaderUpdate_spec delta
    · have idle : Idles state (after.withDisk state.disk) :=
        ⟨by rw [show (after.withDisk state.disk).toVolume = ⟨state.disk, after.mount⟩ from rfl,
          idles'.mount, FsState.mount_withDisk, idles.mount], idles'.faults.trans idles.faults⟩
      refine ⟨after.withDisk state.disk, idle, .inl ?_⟩
      simp only [FsState.disk_withDisk, dirHeaderAt_slotWrite, Disk.push_push] at done'
      exact done'
    · have idle : Idles state (after.withDisk state.disk) :=
        ⟨by rw [show (after.withDisk state.disk).toVolume = ⟨state.disk, after.mount⟩ from rfl,
          idles'.mount, FsState.mount_withDisk, idles.mount], idles'.faults.trans idles.faults⟩
      refine ⟨after.withDisk state.disk, idle, .inr (.inr ⟨idles.headerFaulty faulty, ?_⟩)⟩
      have disk : after.disk = state.disk.push [slotWrite layout state.disk slot entry] :=
        idles'.disk
      have same : (after.withDisk state.disk).withDisk
          (state.disk.push [slotWrite layout state.disk slot entry]) = after := by
        rw [← disk]
        rfl
      rw [same]
      exact failed
  · exact ⟨middle, idles, .inr (.inl ⟨⟨fails, member, _, by omega, bad⟩, run_bind_error failed⟩)⟩

theorem dirRemove_spec (placed : state.Placed uuid layout) {name : Name}
    (short : name.length < dirNameMax) :
    ∃ after, Idles state after ∧
      ((∀ slot < slotCount layout, ¬ HoldsName (slotAt layout state.disk) name slot) ∧
          (nebulaDirRemove name).run state = (.error .ENOENT, after) ∨
        state.Faulty layout ∧ (nebulaDirRemove name).run state = (.error Errno.EIO, after) ∨
        ∃ slot < slotCount layout, FirstNamed (slotAt layout state.disk) name slot ∧
          ((nebulaDirRemove name).run state = (.ok (), after.withDisk (state.disk.push
              [slotWrite layout state.disk slot .zero, headerWrite layout state.disk (-1)])) ∨
            state.HeaderFaulty layout ∧ (nebulaDirRemove name).run state = (.error Errno.EIO,
              after.withDisk (state.disk.push [slotWrite layout state.disk slot .zero])))) := by
  have pure := @scanSlots_find (slotAt layout state.disk) name (slotCount layout) 0 (by omega)
  simp only [nebulaDirRemove, if_neg (not_le.mpr short), run_mount_bind, placed.dirCapacity_eq]
  obtain ⟨middle, idles, ⟨⟨index, entry⟩, found, scanned, inside, ran⟩ |
    ⟨last, cursor, scanned, -, ran⟩ |
    ⟨faulty, ran⟩⟩ := placed.dirScan_spec (findVisit name) (show 0 + slotCount layout ≤ _ by omega)
      (cursorOk_none _) ()
  · rw [scanned] at pure
    obtain ⟨rfl, -, -, first⟩ := pure
    simp only [run_bind_ok ran]
    obtain ⟨after, idles', done⟩ :=
      (placed.of_volume idles.volume).storeSlot_spec inside .zero (-1) rfl
    rw [idles.disk] at done
    refine ⟨after, idles.trans idles', ?_⟩
    rcases done with done | ⟨faulty, failed⟩ | ⟨faulty, failed⟩
    · exact .inr (.inr ⟨index, inside, first, .inl done⟩)
    · exact .inr (.inl ⟨idles.faulty faulty, failed⟩)
    · exact .inr (.inr ⟨index, inside, first, .inr ⟨idles.headerFaulty faulty, failed⟩⟩)
  · rw [scanned] at pure
    simp only [Nat.zero_add] at pure
    exact ⟨middle, idles, .inl ⟨pure, by rw [run_bind_ok ran]; rfl⟩⟩
  · exact ⟨middle, idles, .inr (.inl ⟨faulty, run_bind_error ran⟩)⟩

/-- An entry is stored in the first unused slot, unless the name is there. -/
theorem dirAdd_spec (placed : state.Placed uuid layout) {name : Name} (some : name ≠ [])
    (short : name.length < dirNameMax) (inodeNum : UInt64) (typeFlag : UInt16) :
    ∃ after, Idles state after ∧
      ((∃ slot < slotCount layout, HoldsName (slotAt layout state.disk) name slot) ∧
          (nebulaDirAdd name inodeNum typeFlag).run state = (.error .EEXIST, after) ∨
        (∀ slot < slotCount layout, ¬ HoldsName (slotAt layout state.disk) name slot) ∧
          (∀ slot < slotCount layout, (slotAt layout state.disk slot).used = true) ∧
          (nebulaDirAdd name inodeNum typeFlag).run state = (.error .ENOSPC, after) ∨
        state.Faulty layout ∧
          (nebulaDirAdd name inodeNum typeFlag).run state = (.error Errno.EIO, after) ∨
        (∀ slot < slotCount layout, ¬ HoldsName (slotAt layout state.disk) name slot) ∧
          ∃ slot < slotCount layout, FirstUnused (slotAt layout state.disk) slot ∧
            ((nebulaDirAdd name inodeNum typeFlag).run state =
                (.ok (), after.withDisk (state.disk.push
                  [slotWrite layout state.disk slot (.for name inodeNum typeFlag),
                    headerWrite layout state.disk 1])) ∨
              state.HeaderFaulty layout ∧
                (nebulaDirAdd name inodeNum typeFlag).run state = (.error Errno.EIO,
                  after.withDisk (state.disk.push
                    [slotWrite layout state.disk slot (.for name inodeNum typeFlag)])))) := by
  have pure := @scanSlots_add (slotAt layout state.disk) name (slotCount layout) 0 none
    (fun earlier below => by omega) (by omega)
  simp only [nebulaDirAdd, if_neg some, if_neg (not_le.mpr short), run_mount_bind,
    placed.dirCapacity_eq]
  obtain ⟨middle, idles, ⟨value, found, scanned, inside, ran⟩ | ⟨free, cursor, scanned, held, ran⟩ |
    ⟨faulty, ran⟩⟩ := placed.dirScan_spec (addVisit name) (show 0 + slotCount layout ≤ _ by omega)
      (cursorOk_none _) none
  · rw [scanned] at pure
    simp only [Nat.zero_add] at pure
    exact ⟨middle, idles, .inl ⟨pure, by rw [run_bind_ok ran]; rfl⟩⟩
  · rw [scanned] at pure
    simp only [Nat.zero_add] at pure
    obtain ⟨seen, absent⟩ := pure
    cases free with
    | none => exact ⟨middle, idles, .inr (.inl ⟨absent, seen, by rw [run_bind_ok ran]; rfl⟩)⟩
    | some slot =>
        have placed' := placed.of_volume idles.volume
        obtain ⟨lba, below⟩ := placed.slotLba_eq seen.1
        simp only [run_bind_ok ran, lba]
        obtain ⟨fetched, idles', done | ⟨faulty, failed⟩⟩ :=
          placed'.dirFetch_spec (below.trans placed.data_lt) (by omega) (idles.disk ▸ held)
        · simp only [run_bind_ok done]
          obtain ⟨after, idles'', stored⟩ := (placed'.of_volume idles'.volume).storeSlot_spec seen.1
            (.for name inodeNum typeFlag) 1 rfl
          rw [idles'.disk] at stored
          rw [idles.disk] at stored ⊢
          refine ⟨after, (idles.trans idles').trans idles'', .inr (.inr ?_)⟩
          rcases stored with stored | ⟨faulty, failed⟩ | ⟨faulty, failed⟩
          · exact .inr ⟨absent, slot, seen.1, seen.2, .inl stored⟩
          · exact .inl ⟨(idles.trans idles').faulty faulty, failed⟩
          · exact .inr ⟨absent, slot, seen.1, seen.2,
              .inr ⟨(idles.trans idles').headerFaulty faulty, failed⟩⟩
        · exact ⟨fetched, idles.trans idles', .inr (.inr (.inl
            ⟨idles.faulty faulty, run_bind_error failed⟩))⟩
  · exact ⟨middle, idles, .inr (.inr (.inl ⟨faulty, run_bind_error ran⟩))⟩

theorem dirList_spec (placed : state.Placed uuid layout) :
    ∃ after, Idles state after ∧
      (nebulaDirList.run state = (.ok ((List.range (slotCount layout)).filterMap
          fun slot => listedItem (slotAt layout state.disk slot)), after) ∨
        state.Faulty layout ∧ nebulaDirList.run state = (.error Errno.EIO, after)) := by
  have pure := @scanSlots_list (slotAt layout state.disk) (slotCount layout) 0 []
  simp only [nebulaDirList, run_mount_bind, placed.dirCapacity_eq]
  obtain ⟨after, idles, ⟨value, -⟩ | ⟨items, cursor, scanned, -, ran⟩ | ⟨faulty, ran⟩⟩ :=
    placed.dirScan_spec listVisit (show 0 + slotCount layout ≤ _ by omega) (cursorOk_none _) []
  · exact nomatch value
  · rw [scanned] at pure
    simp only [Nat.zero_add, List.nil_append, List.map_id', ScanStep.next.injEq] at pure
    exact ⟨after, idles, .inl (by rw [run_bind_ok ran, pure]; rfl)⟩
  · exact ⟨after, idles, .inr ⟨faulty, run_bind_error ran⟩⟩

end FsState.Placed

end MiniFs
