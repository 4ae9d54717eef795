import MiniFs.Fs.Rounds

/-!
# Overlapping extents

A write that meets a block without an extent appends one for the rest of the write, at most 256
blocks, whatever is mapped further on.  The extents of a file stay apart as long as no block of such
a window has an extent.
-/

namespace MiniFs

open Fs

namespace NebulaInode

/-- The logical block has an extent. -/
def maps (inode : NebulaInode) (blk : Nat) : Bool := (extentFind inode blk).isSome

/-- Each logical block is covered by at most one extent. -/
structure Apart (inode : NebulaInode) : Prop where
  bounded : ∀ index,
    (inode.extents index).emOffset.toNat + (inode.extents index).sizeBlocks < 2 ^ 63
  unique : ∀ {blk index other}, (inode.extents index).covers blk = true →
    (inode.extents other).covers blk = true → index = other

/-- Two extents cover one block. -/
def Overlapped (inode : NebulaInode) : Prop :=
  ∃ blk index other, index ≠ other ∧ (inode.extents index).covers blk = true ∧
    (inode.extents other).covers blk = true

variable {inode after : NebulaInode} {blk n lba : Nat}

theorem maps_iff : inode.maps blk = true ↔ ∃ index, (inode.extents index).covers blk = true := by
  rw [maps, Option.isSome_iff_exists]
  constructor
  · rintro ⟨index, found⟩
    exact ⟨index, (find?_finRange_eq_some.mp found).1⟩
  · rintro ⟨index, covered⟩
    cases found : extentFind inode blk with
    | some first => exact ⟨first, rfl⟩
    | none =>
        rw [find?_finRange_eq_none.mp found index] at covered
        contradiction

/-- The search finds the extent of every block that one covers. -/
theorem Apart.extentFind_eq (apart : inode.Apart) {index : Fin 248}
    (covered : (inode.extents index).covers blk = true) : extentFind inode blk = some index := by
  obtain ⟨first, found⟩ := Option.isSome_iff_exists.mp (maps_iff.mpr ⟨index, covered⟩)
  rw [found, apart.unique (find?_finRange_eq_some.mp found).1 covered]

/-- What an appended extent covers. -/
structure Window (inode : NebulaInode) (blk n : Nat) (after : NebulaInode) (here : Fin 248) :
    Prop where
  bounded : (after.extents here).emOffset.toNat + (after.extents here).sizeBlocks < 2 ^ 63
  empty : ∀ other, (inode.extents here).covers other = false
  covers : ∀ other, (after.extents here).covers other = true ↔ blk ≤ other ∧ other < blk + n
  rest : ∀ index, index ≠ here → after.extents index = inode.extents index

theorem window_of_append (low : blk < 2 ^ 53) (few : n ≤ 256)
    (appended : extentAppend inode blk n lba = some after) :
    ∃ here, inode.Window blk n after here := by
  obtain ⟨here, empty, -, rfl⟩ := extentAppend_eq_some appended
  have offsetEq := ExtentMapEntry.emOffset_for (show blk < 2 ^ 63 by omega) n lba
  have sizeEq := ExtentMapEntry.sizeBlocks_for (show n < 2 ^ 24 by omega) blk lba
  have bounded : (ExtentMapEntry.for blk n lba).emOffset.toNat +
      (ExtentMapEntry.for blk n lba).sizeBlocks < 2 ^ 63 := by omega
  refine ⟨here, ?_, fun other => ?_, fun other => ?_, fun index away =>
    Function.update_of_ne away _ _⟩
  · simp only [Function.update_self]
    exact bounded
  · rw [ExtentMapEntry.covers, decide_eq_false_iff_not]
    exact fun covered => covered.1 empty
  · simp only [Function.update_self]
    rw [ExtentMapEntry.covers_iff bounded, offsetEq, sizeEq]

variable {here : Fin 248}

theorem Window.maps (window : inode.Window blk n after here) (other : Nat) :
    after.maps other = (inode.maps other || decide (blk ≤ other ∧ other < blk + n)) := by
  rw [Bool.eq_iff_iff, Bool.or_eq_true, maps_iff, maps_iff, decide_eq_true_iff]
  constructor
  · rintro ⟨index, covered⟩
    by_cases same : index = here
    · exact .inr ((window.covers other).mp (same ▸ covered))
    · exact .inl ⟨index, window.rest index same ▸ covered⟩
  · rintro (⟨index, covered⟩ | inside)
    · have away : index ≠ here := by
        rintro rfl
        rw [window.empty] at covered
        contradiction
      exact ⟨index, (window.rest index away).symm ▸ covered⟩
    · exact ⟨here, (window.covers other).mpr inside⟩

/-- An extent over blocks that have none keeps the extents apart. -/
theorem Window.apart (window : inode.Window blk n after here) (apart : inode.Apart)
    (clear : ∀ offset < n, inode.maps (blk + offset) = false) : after.Apart := by
  have fresh : ∀ {other index}, index ≠ here → (after.extents here).covers other = true →
      (after.extents index).covers other = true → False := by
    intro other index away covered covered'
    obtain ⟨low, high⟩ := (window.covers other).mp covered
    have unmapped := clear (other - blk) (by omega)
    rw [Nat.add_sub_cancel' low] at unmapped
    rw [window.rest index away] at covered'
    rw [maps_iff.mpr ⟨index, covered'⟩] at unmapped
    contradiction
  refine ⟨fun index => ?_, fun {other index index'} covered covered' => ?_⟩
  · by_cases same : index = here
    · rw [same]
      exact window.bounded
    · rw [window.rest index same]
      exact apart.bounded index
  · by_cases same : index = here <;> by_cases same' : index' = here
    · rw [same, same']
    · exact absurd (same ▸ covered) fun covered => fresh same' covered covered'
    · exact absurd (same' ▸ covered') fun covered' => fresh same covered' covered
    · rw [window.rest index same] at covered
      rw [window.rest index' same'] at covered'
      exact apart.unique covered covered'

/-- An extent over a block that has one overlaps. -/
theorem Window.overlapped (window : inode.Window blk n after here) {offset : Nat}
    (inside : offset < n) (mapped : inode.maps (blk + offset) = true) : after.Overlapped := by
  obtain ⟨index, covered⟩ := maps_iff.mp mapped
  have away : index ≠ here := by
    rintro rfl
    rw [window.empty] at covered
    contradiction
  exact ⟨blk + offset, index, here, away, (window.rest index away).symm ▸ covered,
    (window.covers _).mpr ⟨by omega, by omega⟩⟩

theorem Window.still (window : inode.Window blk n after here) (overlapped : inode.Overlapped) :
    after.Overlapped := by
  obtain ⟨other, index, index', apart, covered, covered'⟩ := overlapped
  have away : ∀ {index}, (inode.extents index).covers other = true → index ≠ here := by
    rintro index covered rfl
    rw [window.empty] at covered
    contradiction
  exact ⟨other, index, index', apart, (window.rest _ (away covered)).symm ▸ covered,
    (window.rest _ (away covered')).symm ▸ covered'⟩

end NebulaInode

/-- No block of a window that a write of `left` bytes at `curOff` opens has an extent.  A window is
opened at a block without an extent, for the rest of the write. -/
def windowsClear : Nat → (Nat → Bool) → Nat → Nat → Bool
  | 0, _, _, _ => true
  | fuel + 1, mapped, curOff, left =>
      if left = 0 then true
      else if mapped (curOff / 4096) then
        windowsClear fuel mapped ((curOff + blockPart curOff left) % 2 ^ 64)
          (left - blockPart curOff left)
      else
        let need := needBlks left (curOff % 4096)
        ((List.range need).all fun offset => !mapped (curOff / 4096 + offset)) &&
          windowsClear fuel
            (fun blk => mapped blk || decide (curOff / 4096 ≤ blk ∧ blk < curOff / 4096 + need))
            ((curOff + blockPart curOff left) % 2 ^ 64) (left - blockPart curOff left)

/-- A write opens windows over blocks without extents only. -/
def ClearWindows (file : NebulaFile) (offset : UInt64) (data : List UInt8) : Prop :=
  windowsClear data.length file.inode.maps offset.toNat data.length = true

/-- A write that is turned away, or opens windows over blocks without extents only. -/
def SparesExtents (state : FsState) (file : NebulaFile) (offset : UInt64)
    (data : List UInt8) : Prop :=
  Refused state file offset data ∨ ClearWindows file offset data

section Windows

variable {offset : UInt64} {data : List UInt8}

/-- The windows from a round on. -/
def clearFrom (offset : UInt64) (data : List UInt8) (fuel written : Nat)
    (inode : NebulaInode) : Bool :=
  windowsClear fuel inode.maps (roundOff offset written) (data.length - written)

theorem roundOff_add (offset : UInt64) (written part : Nat) :
    (roundOff offset written + part) % 2 ^ 64 = roundOff offset (written + part) := by
  simp only [roundOff]
  omega

theorem roundOff_lt (offset : UInt64) (written : Nat) : roundOff offset written < 2 ^ 64 :=
  Nat.mod_lt _ (by decide)

theorem clearFrom_found {written fuel : Nat} {inode : NebulaInode} {index : Fin 248}
    (more : written < data.length)
    (known : extentFind inode (roundOff offset written / 4096) = some index) :
    clearFrom offset data (fuel + 1) written inode = clearFrom offset data fuel
      (written + blockPart (roundOff offset written) (data.length - written)) inode := by
  have mapped : inode.maps (roundOff offset written / 4096) = true := by
    rw [NebulaInode.maps, known, Option.isSome_some]
  rw [clearFrom, windowsClear, if_neg (by omega), if_pos mapped, roundOff_add, Nat.sub_sub]
  rfl

theorem clearFrom_added {written fuel : Nat} {inode inode' : NebulaInode} {here : Fin 248}
    (more : written < data.length)
    (unknown : extentFind inode (roundOff offset written / 4096) = none)
    (window : inode.Window (roundOff offset written / 4096)
      (needBlks (data.length - written) (roundOff offset written % 4096)) inode' here) :
    clearFrom offset data (fuel + 1) written inode = true ↔
      (∀ block < needBlks (data.length - written) (roundOff offset written % 4096),
        inode.maps (roundOff offset written / 4096 + block) = false) ∧
      clearFrom offset data fuel
        (written + blockPart (roundOff offset written) (data.length - written)) inode' = true := by
  have unmapped : ¬ inode.maps (roundOff offset written / 4096) = true := by
    rw [NebulaInode.maps, unknown]
    simp
  have same : inode'.maps = fun blk => inode.maps blk ||
      decide (roundOff offset written / 4096 ≤ blk ∧ blk < roundOff offset written / 4096 +
        needBlks (data.length - written) (roundOff offset written % 4096)) := funext window.maps
  rw [clearFrom, windowsClear, if_neg (by omega), if_neg unmapped, roundOff_add, Nat.sub_sub,
    Bool.and_eq_true, ← same]
  simp [clearFrom]

theorem round_window {written lba : Nat} {inode inode' : NebulaInode}
    (appended : extentAppend inode (roundOff offset written / 4096)
      (needBlks (data.length - written) (roundOff offset written % 4096)) lba = some inode') :
    ∃ here, inode.Window (roundOff offset written / 4096)
      (needBlks (data.length - written) (roundOff offset written % 4096)) inode' here := by
  have bound := roundOff_lt offset written
  exact NebulaInode.window_of_append (by omega) (needBlks_bounds _ _).2 appended

/-- Rounds over clear windows keep the extents apart. -/
theorem apart_rule (offset : UInt64) (data : List UInt8) :
    RoundRule offset data fun written inode => inode.Apart ∧
      ∃ fuel, data.length - written ≤ fuel ∧ clearFrom offset data fuel written inode = true where
  found := by
    rintro written inode index ⟨apart, fuel, enough, clear⟩ more known
    have advance := (@blockPart_bounds (roundOff offset written) _ (Nat.sub_pos_of_lt more)).1
    obtain ⟨fuel, rfl⟩ := Nat.exists_eq_add_one_of_ne_zero (show fuel ≠ 0 by omega)
    rw [clearFrom_found more known] at clear
    exact ⟨apart, fuel, by omega, clear⟩
  added := by
    rintro written inode inode' lba ⟨apart, fuel, enough, clear⟩ more unknown appended
    have advance := (@blockPart_bounds (roundOff offset written) _ (Nat.sub_pos_of_lt more)).1
    obtain ⟨fuel, rfl⟩ := Nat.exists_eq_add_one_of_ne_zero (show fuel ≠ 0 by omega)
    obtain ⟨here, window⟩ := round_window appended
    obtain ⟨here_, later⟩ := (clearFrom_added more unknown window).mp clear
    exact ⟨window.apart apart here_, fuel, by omega, later⟩

/-- Rounds over a window that is not clear overlap in the end. -/
theorem overlap_rule (offset : UInt64) (data : List UInt8) :
    RoundRule offset data fun written inode => inode.Overlapped ∨
      ∃ fuel, data.length - written ≤ fuel ∧ clearFrom offset data fuel written inode = false where
  found := by
    rintro written inode index (overlapped | ⟨fuel, enough, unclear⟩) more known
    · exact .inl overlapped
    · have advance := (@blockPart_bounds (roundOff offset written) _ (Nat.sub_pos_of_lt more)).1
      obtain ⟨fuel, rfl⟩ := Nat.exists_eq_add_one_of_ne_zero (show fuel ≠ 0 by omega)
      rw [clearFrom_found more known] at unclear
      exact .inr ⟨fuel, by omega, unclear⟩
  added := by
    rintro written inode inode' lba (overlapped | ⟨fuel, enough, unclear⟩) more unknown appended
    · obtain ⟨here, window⟩ := round_window appended
      exact .inl (window.still overlapped)
    · have advance := (@blockPart_bounds (roundOff offset written) _ (Nat.sub_pos_of_lt more)).1
      obtain ⟨fuel, rfl⟩ := Nat.exists_eq_add_one_of_ne_zero (show fuel ≠ 0 by omega)
      obtain ⟨here, window⟩ := round_window appended
      by_cases clear : ∀ block < needBlks (data.length - written) (roundOff offset written % 4096),
          inode.maps (roundOff offset written / 4096 + block) = false
      · refine .inr ⟨fuel, by omega, ?_⟩
        rw [Bool.eq_false_iff] at unclear ⊢
        exact fun later => unclear ((clearFrom_added more unknown window).mpr ⟨clear, later⟩)
      · push Not at clear
        obtain ⟨block, inside, mapped⟩ := clear
        exact .inl (window.overlapped inside (by simpa using mapped))

end Windows

theorem NebulaInode.maps_congr {inode after : NebulaInode} (same : after.extents = inode.extents)
    (blk : Nat) : after.maps blk = inode.maps blk := by
  rw [maps, maps, extentFind, extentFind, same]

theorem NebulaInode.maps_eq_false {inode : NebulaInode} {blk : Nat} :
    inode.maps blk = false ↔ extentFind inode blk = none := by
  rw [maps, Option.isSome_eq_false_iff, Option.isNone_iff_eq_none]

section Runs

variable {uuid : Bytes 16} {layout : NebulaLayout}

theorem NebulaInode.Apart.congr {inode after : NebulaInode} (apart : inode.Apart)
    (same : after.extents = inode.extents) : after.Apart :=
  ⟨fun index => by rw [same]; exact apart.bounded index,
    fun {blk index other} covered covered' => by
    rw [same] at covered covered'
    exact apart.unique covered covered'⟩

/-- A write that is turned away or has clear windows keeps the extents apart. -/
theorem fileWrite_apart {file next : NebulaFile} {state after : FsState} {offset now : UInt64}
    {data : List UInt8} {result : Except Errno Nat} (ready : state.Ready uuid layout)
    (inside : file.inode.inodeNum.toNat < layout.inodePageBlockCount) (apart : file.inode.Apart)
    (spares : SparesExtents state file offset data)
    (wrote : (nebulaFileWrite file offset data now).run state = (.ok (result, next), after)) :
    after.Ready uuid layout ∧ next.inode.inodeNum = file.inode.inodeNum ∧ next.inode.Apart := by
  rcases spares with refused | clear
  · obtain ⟨-, rfl, ready', -⟩ := ready.refusal refused wrote
    exact ⟨ready', rfl, apart⟩
  by_cases writable : file.flags &&& openWriteOnly = 0
  · rw [fileWrite_refused writable] at wrote
    cases wrote
    exact ⟨ready, rfl, apart⟩
  by_cases empty : data = []
  · rw [empty, fileWrite_nothing writable] at wrote
    cases wrote
    exact ⟨ready, rfl, apart⟩
  have start : clearFrom offset data data.length 0 file.inode = true := by
    have bound := offset.toNat_lt
    rw [clearFrom, roundOff, Nat.add_zero, Nat.mod_eq_of_lt bound]
    exact clear
  obtain ⟨stop, n, last, middle, leaves, ready', -, ended⟩ :=
    fileWrite_rule (apart_rule offset data)
    ready inside ⟨apart, data.length, Nat.sub_le _ _, start⟩ writable empty now
  obtain ⟨written, apart', -⟩ := leaves.kept
  have number : last.inode.inodeNum = file.inode.inodeNum := by rw [leaves.rest]
  rcases ended with ⟨-, error, ran⟩ | ⟨-, ran⟩
  · rw [ran] at wrote
    cases wrote
    exact ⟨ready', number, apart'⟩
  · rw [ran] at wrote
    cases wrote
    exact ⟨ready'.withDisk rfl, (last.inode.written_inodeNum _ _).trans number,
      apart'.congr (last.inode.written_extents _ _)⟩

theorem NebulaInode.Apart.not_overlapped {inode : NebulaInode} (apart : inode.Apart) :
    ¬ inode.Overlapped := by
  rintro ⟨blk, index, other, different, covered, covered'⟩
  exact different (apart.unique covered covered')

/-- A write that comes to its end keeps the extents apart only if its windows are clear. -/
theorem fileWrite_apart_iff {file next : NebulaFile} {state after : FsState} {offset now : UInt64}
    {data : List UInt8} (ready : state.Ready uuid layout)
    (inside : file.inode.inodeNum.toNat < layout.inodePageBlockCount) (apart : file.inode.Apart)
    (wrote : (nebulaFileWrite file offset data now).run state =
      (.ok (.ok data.length, next), after)) :
    next.inode.Apart ↔ ClearWindows file offset data := by
  refine ⟨fun kept => ?_, fun clear =>
    (fileWrite_apart ready inside apart (.inr clear) wrote).2.2⟩
  by_cases writable : file.flags &&& openWriteOnly = 0
  · rw [fileWrite_refused writable] at wrote
    cases wrote
  by_cases empty : data = []
  · rw [ClearWindows, empty]
    rfl
  by_contra unclear
  have start : clearFrom offset data data.length 0 file.inode = false := by
    have bound := offset.toNat_lt
    rw [clearFrom, roundOff, Nat.add_zero, Nat.mod_eq_of_lt bound, Bool.eq_false_iff]
    exact unclear
  obtain ⟨stop, n, last, middle, leaves, -, -, ended⟩ := fileWrite_rule (overlap_rule offset data)
    ready inside (.inr ⟨data.length, Nat.sub_le _ _, start⟩) writable empty now
  rcases ended with ⟨stopped, error, ran⟩ | ⟨ended, ran⟩
  · have short := leaves.short stopped
    rw [ran, shortCount] at wrote
    split_ifs at wrote
    · simp only [Prod.mk.injEq, Except.ok.injEq] at wrote
      omega
    · simp at wrote
  · obtain ⟨-, overlapped | ⟨fuel, -, unclear⟩⟩ := leaves.whole ended
    · rw [ran] at wrote
      cases wrote
      exact (kept.congr (last.inode.written_extents _ _).symm).not_overlapped overlapped
    · rw [clearFrom, Nat.sub_self] at unclear
      cases fuel <;> simp [windowsClear] at unclear

/-- Writes that are turned away or open windows over blocks without extents only keep the extents of
a file apart, and the search finds each of them. -/
theorem extents_stay_apart {uuid : Bytes 16} {layout : NebulaLayout} {file file' : NebulaFile}
    {state state' : FsState} (ready : state.Ready uuid layout)
    (inside : file.inode.inodeNum.toNat < layout.inodePageBlockCount) (apart : file.inode.Apart)
    (run : WriteRun SparesExtents file state file' state') :
    file'.inode.Apart ∧ ∀ blk index, (file'.inode.extents index).covers blk = true →
      extentFind file'.inode blk = some index := by
  have kept : state'.Ready uuid layout ∧
      file'.inode.inodeNum.toNat < layout.inodePageBlockCount ∧ file'.inode.Apart := by
    induction run with
    | nil => exact ⟨ready, inside, apart⟩
    | write run spares wrote ih =>
        obtain ⟨ready₁, inside₁, apart₁⟩ := ih
        obtain ⟨ready₂, number, apart₂⟩ := fileWrite_apart ready₁ inside₁ apart₁ spares wrote
        exact ⟨ready₂, by rw [number]; exact inside₁, apart₂⟩
  exact ⟨kept.2.2, fun blk index covered => kept.2.2.extentFind_eq covered⟩

theorem createdFile_apart (number : Nat) (mode : UInt32) (now : UInt64) :
    (createdFile number mode now).inode.Apart := by
  obtain ⟨mapped, -, -⟩ := NebulaInode.mapped_of_empty (createdFile_extents number mode now)
  refine ⟨mapped.bounded, fun {blk index other} covered => ?_⟩
  rw [find?_finRange_eq_none.mp (createdFile_hole number mode now blk) index] at covered
  contradiction

/-- An extent of one block maps it. -/
theorem NebulaInode.maps_written {inode after : NebulaInode} {blk lba : Nat} (low : blk < 2 ^ 53)
    (appended : extentAppend inode blk 1 lba = some after) (reach now : UInt64) (other : Nat) :
    (after.written reach now).maps other = (inode.maps other || decide (other = blk)) := by
  obtain ⟨here, window⟩ := window_of_append low (by decide) appended
  rw [maps_congr (after.written_extents reach now), window.maps,
    decide_eq_decide.mpr (show blk ≤ other ∧ other < blk + 1 ↔ other = blk by omega)]

/-- Two bytes in different blocks are written to the first file. -/
theorem FirstFile.write_twice {number : Nat} {state : FsState}
    (first : FirstFile layout number state)
    (small : layout.capacityBlocks ≤ 2 ^ 32) {offset offset' : UInt64}
    (unwrapped : offset.toNat + 1 < 2 ^ 64) (unwrapped' : offset'.toNat + 1 < 2 ^ 64)
    (apart : offset'.toNat / 4096 ≠ offset.toNat / 4096) (byte byte' : UInt8) :
    ∃ lba lba' inode inode' state₁ state₂,
      extentAppend (createdFile number 0 0).inode (offset.toNat / 4096) 1 lba = some inode ∧
      (nebulaFileWrite (createdFile number 0 0) offset [byte] 0).run state =
        (.ok (.ok 1, ⟨inode.written (offset + 1) 0, openReadWrite, false⟩), state₁) ∧
      extentAppend (inode.written (offset + 1) 0) (offset'.toNat / 4096) 1 lba' = some inode' ∧
      (nebulaFileWrite ⟨inode.written (offset + 1) 0, openReadWrite, false⟩ offset' [byte'] 0).run
        state₁ = (.ok (.ok 1, ⟨inode'.written (offset' + 1) 0, openReadWrite, false⟩), state₂) ∧
      state₂.Solid plainOptions.uuid layout ∧ state₂.Backs layout (inode'.written (offset' + 1) 0) ∧
      (inode'.written (offset' + 1) 0).inodeNum.toNat < layout.inodePageBlockCount := by
  have room := first.exact.sound.data_room
  have tail := first.exact.sound.allocRootsTail_eq
  obtain ⟨lba, inode, state₁, appended, wrote, solid, backs, free⟩ :=
    first.write_byte small offset unwrapped byte 0
  obtain ⟨here, window⟩ := NebulaInode.window_of_append (by omega) (by decide) appended
  obtain ⟨_, -, -, rest⟩ := extentAppend_eq_some appended
  have unknown : extentFind (inode.written (offset + 1) 0) (offset'.toNat / 4096) = none := by
    rw [← NebulaInode.maps_eq_false, NebulaInode.maps_written (by omega) appended,
      NebulaInode.maps_eq_false.mpr (createdFile_hole number 0 0 _), decide_eq_false apart]
    rfl
  have inside : (inode.written (offset + 1) 0).inodeNum.toNat < layout.inodePageBlockCount := by
    rw [NebulaInode.written_inodeNum, rest]
    exact first.inside
  obtain ⟨slot, away⟩ := exists_ne here
  obtain ⟨lba', inode', state₂, appended', wrote', solid', backs', -⟩ :=
    @fileWrite_hole _ _ _ ⟨inode.written (offset + 1) 0, openReadWrite, false⟩ solid backs inside
      (show openReadWrite &&& openWriteOnly ≠ 0 by decide) offset' [byte'] (by simp)
      (by rw [List.length_singleton]; omega) unwrapped' 0 unknown (layout.dataStartLba + 1)
      (free _ (by omega) (by omega)) (by omega) slot
      (by rw [NebulaInode.written_extents, window.rest slot away, createdFile_extents]; decide)
  obtain ⟨_, -, -, rest'⟩ := extentAppend_eq_some appended'
  refine ⟨lba, lba', inode, inode', state₁, state₂, appended, wrote, appended', wrote', solid',
    backs', ?_⟩
  rw [NebulaInode.written_inodeNum, rest']
  exact inside

/-- A byte of a file of two blocks is written again. -/
theorem FirstFile.write_again {number : Nat} {state : FsState}
    (first : FirstFile layout number state) (small : layout.capacityBlocks ≤ 2 ^ 32) :
    ∃ lba lba' inode inode' state₁ state₂ state₃,
      extentAppend (createdFile number 0 0).inode 1 1 lba = some inode ∧
      (nebulaFileWrite (createdFile number 0 0) 4096 [7] 0).run state =
        (.ok (.ok 1, ⟨inode.written 4097 0, openReadWrite, false⟩), state₁) ∧
      extentAppend (inode.written 4097 0) 2 1 lba' = some inode' ∧
      (nebulaFileWrite ⟨inode.written 4097 0, openReadWrite, false⟩ 8192 [8] 0).run state₁ =
        (.ok (.ok 1, ⟨inode'.written 8193 0, openReadWrite, false⟩), state₂) ∧
      (nebulaFileWrite ⟨inode'.written 8193 0, openReadWrite, false⟩ 4096 [9] 0).run state₂ =
        (.ok (.ok 1, ⟨(inode'.written 8193 0).written 4097 0, openReadWrite, false⟩), state₃) := by
  obtain ⟨lba, lba', inode, inode', state₁, state₂, appended, wrote, appended', wrote', solid,
    backs,
    inside⟩ := @FirstFile.write_twice _ _ _ first small 4096 8192 (by decide) (by decide)
      (by decide) 7 8
  have mapped : (inode'.written 8193 0).maps 1 = true := by
    rw [NebulaInode.maps_written (by decide) appended',
      NebulaInode.maps_written (by decide) appended]
    simp
  obtain ⟨index, known⟩ := Option.isSome_iff_exists.mp mapped
  obtain ⟨state₃, again⟩ :=
    @fileWrite_known _ _ _ ⟨inode'.written 8193 0, openReadWrite, false⟩ solid
    backs inside (show openReadWrite &&& openWriteOnly ≠ 0 by decide) 4096 [9] (by simp) (by decide)
    (by decide) 0 _ known
  exact ⟨lba, lba', inode, inode', state₁, state₂, state₃, appended, wrote, appended', wrote',
    again⟩

theorem extents_stay_apart_first : ∃ file file₁ file₂ file₃ state state₁ state₂ state₃,
    (nebulaFileWrite file 4096 [7] 0).run state = (.ok (.ok 1, file₁), state₁) ∧
    (nebulaFileWrite file₁ 8192 [8] 0).run state₁ = (.ok (.ok 1, file₂), state₂) ∧
    (nebulaFileWrite file₂ 4096 [9] 0).run state₂ = (.ok (.ok 1, file₃), state₃) ∧
    file₃.inode.maps 1 = true ∧ file₃.inode.maps 2 = true ∧ file₃.inode.Apart := by
  obtain ⟨layout, -, number, state, total, -, -, first⟩ :=
    @plainDisk_created 65536 le_rfl (by decide) (by decide)
  obtain ⟨lba, lba', inode, inode', state₁, state₂, state₃, appended, wrote, appended', wrote',
    again⟩ := first.write_again (by omega)
  have unmapped : (createdFile number 0 0).inode.maps = fun _ => false :=
    funext fun blk => NebulaInode.maps_eq_false.mpr (createdFile_hole number 0 0 blk)
  have maps : (inode.written 4097 0).maps = fun other => decide (other = 1) := by
    funext other
    rw [NebulaInode.maps_written (by decide) appended, unmapped, Bool.false_or]
  have maps' : (inode'.written 8193 0).maps = fun other =>
      decide (other = 1) || decide (other = 2) := by
    funext other
    rw [NebulaInode.maps_written (by decide) appended', maps]
  have clear : ClearWindows (createdFile number 0 0) 4096 [7] := by
    rw [ClearWindows, unmapped]
    decide
  have clear' : ClearWindows ⟨inode.written 4097 0, openReadWrite, false⟩ 8192 [8] := by
    rw [ClearWindows, maps]
    decide
  have clear'' : ClearWindows ⟨inode'.written 8193 0, openReadWrite, false⟩ 4096 [9] := by
    rw [ClearWindows, maps']
    decide
  have mapped := NebulaInode.maps_congr ((inode'.written 8193 0).written_extents 4097 0)
  refine ⟨_, _, _, _, state, state₁, state₂, state₃, wrote, wrote', again, ?_, ?_,
    (extents_stay_apart (first.solid (by omega)).ready first.inside (createdFile_apart number 0 0)
      (.write (.write (.write .nil (.inr clear) wrote) (.inr clear') wrote')
        (.inr clear'') again)).1⟩
  · rw [mapped, maps']
    rfl
  · rw [mapped, maps']
    rfl

/-- A write of two blocks into a hole of one overlaps the extent behind it. -/
theorem extents_overlap : ¬ ∀ (uuid : Bytes 16) (layout : NebulaLayout) (file file' : NebulaFile)
    (state state' : FsState), state.Ready uuid layout →
    file.inode.inodeNum.toNat < layout.inodePageBlockCount → file.inode.Apart →
    WriteRun (fun _ _ _ _ => True) file state file' state' →
    file'.inode.Apart ∧ ∀ blk index, (file'.inode.extents index).covers blk = true →
      extentFind file'.inode blk = some index := by
  intro claim
  obtain ⟨layout, -, number, state, total, -, -, first⟩ :=
    @plainDisk_created 65536 le_rfl (by decide) (by decide)
  have sound := first.exact.sound
  have room := sound.data_room
  have tail := sound.allocRootsTail_eq
  -- one byte in block 1
  obtain ⟨lba, inode, state₁, appended, wrote₁, solid₁, backs₁, free₁⟩ :=
    first.write_byte (by omega) 4096 (by decide) 7 0
  obtain ⟨here, window⟩ := NebulaInode.window_of_append (by decide) (by decide) appended
  generalize written₁ : inode.written _ 0 = inode₁ at wrote₁ backs₁
  have same : inode₁.extents = inode.extents := by rw [← written₁, NebulaInode.written_extents]
  have numberEq : inode₁.inodeNum = (createdFile number 0 0).inode.inodeNum := by
    obtain ⟨_, -, -, rest⟩ := extentAppend_eq_some appended
    rw [← written₁, NebulaInode.written_inodeNum, rest]
  have maps : ∀ blk, inode₁.maps blk = decide (1 ≤ blk ∧ blk < 2) := by
    intro blk
    rw [NebulaInode.maps_congr same, window.maps,
      NebulaInode.maps_eq_false.mpr (createdFile_hole number 0 0 blk), Bool.false_or]
    rfl
  -- two blocks from block 0 on
  obtain ⟨slot, away⟩ := exists_ne here
  obtain ⟨lba₂, inode₂, -, -, appended₂, mapped₂⟩ :=
    @planMap_free layout.capacityBlocks state₁.taken
    inode₁ 0 2 (layout.dataStartLba + 1) (by decide) (NebulaInode.maps_eq_false.mp (maps 0))
    (fun offset below => free₁ _ (by omega) (by omega)) (by omega) slot
    (by rw [same, window.rest slot away, createdFile_extents]; decide)
  obtain ⟨here₂, window₂⟩ := NebulaInode.window_of_append (by decide) (by decide) appended₂
  have found : ∃ index, extentFind inode₂ 1 = some index := by
    rw [← Option.isSome_iff_exists, ← NebulaInode.maps, window₂.maps, maps]
    rfl
  obtain ⟨index, found⟩ := found
  obtain ⟨data, length⟩ : ∃ data : List UInt8, data.length = 4097 :=
    ⟨.replicate 4097 7, List.length_replicate⟩
  have second : ∀ used, writePlan layout.capacityBlocks 4096 used inode₂ 4096 1 = (1, inode₂) :=
    fun used => @writePlan_known _ used _ 4095 4096 1 _ (by decide) (by decide) found
  have planned : writePlan layout.capacityBlocks data.length state₁.taken inode₁
      (0 : UInt64).toNat data.length = (data.length, inode₂) := by
    rw [length]
    exact @writePlan_round _ 4096 1 0 4097 _ _ _ _ _ (by decide) mapped₂ (second _)
  obtain ⟨state₂, wrote₂, -⟩ :=
    @fileWrite_planned _ _ _ ⟨inode₁, openReadWrite, false⟩ solid₁ backs₁
    (by rw [numberEq]; exact first.inside) (show openReadWrite &&& openWriteOnly ≠ 0 by decide) 0
    data (List.ne_nil_of_length_pos (by omega))
    (by rw [length]; decide) 0 _ planned
  obtain ⟨apart₂, -⟩ := claim _ layout _ _ _ _ (first.solid (by omega)).ready first.inside
    (createdFile_apart number 0 0) (.write (.write .nil trivial wrote₁) trivial wrote₂)
  exact (apart₂.congr (inode₂.written_extents _ _).symm).not_overlapped
    (window₂.overlapped (show 1 < 2 by decide) (maps 1))

end Runs

end MiniFs
