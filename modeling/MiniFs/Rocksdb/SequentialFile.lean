import MiniFs.Fs.AllocSize
import MiniFs.Fs.Api

/-!
# Sequential files

A sequential file of the RocksDB adapter is a handle with a cursor.  Reads are clamped to the bytes
left and move the cursor over them; a skip adds to the cursor in 64 bits before it is clamped, so a
skip whose end wraps moves the cursor back.
-/

namespace MiniFs

open Fs

/-- `NebulaSequentialFile`. -/
structure NebulaSequentialFile where
  fh : NebulaFile
  pos : UInt64
  size : UInt64

/-- The constructor, as `NewSequentialFile` calls it. -/
def newSequentialFile (fh : NebulaFile) : NebulaSequentialFile := ⟨fh, 0, nebulaFsFileSize fh⟩

/-- `NebulaSequentialFile::Read`: the slice or the error, and the file. -/
def NebulaSequentialFile.read (file : NebulaSequentialFile) (n now : UInt64) :
    Fs (Except Errno (List UInt8) × NebulaSequentialFile) := do
  if file.size ≤ file.pos then return (.ok [], file)
  else
    let toRead := min n (file.size - file.pos)
    match ← nebulaFileRead file.fh file.pos toRead.toNat now with
    | (.error error, fh) => return (.error error, { file with fh })
    | (.ok got, fh) => return (.ok got, { file with fh, pos := file.pos + UInt64.ofNat got.length })

/-- `NebulaSequentialFile::Skip`. -/
def NebulaSequentialFile.skip (file : NebulaSequentialFile) (n : UInt64) : NebulaSequentialFile :=
  { file with pos := min (file.pos + n) file.size }

/-- `NebulaRandomAccessFile::Read`. -/
def randomAccessRead (fh : NebulaFile) (offset n now : UInt64) :
    Fs (Except Errno (List UInt8) × NebulaFile) := do
  let sz := nebulaFsFileSize fh
  if sz ≤ offset then return (.ok [], fh)
  else nebulaFileRead fh offset (min n (sz - offset)).toNat now

/-- The calls on a sequential file. -/
inductive SequentialCall
  | read (n now : UInt64)
  | skip (n : UInt64)

/-- A call with the cursor around it and what it returned. -/
structure SequentialEvent where
  call : SequentialCall
  before : UInt64
  after : UInt64
  reply : Except Errno (List UInt8)

/-- Make the calls one after another. -/
def sequentialRun : List SequentialCall → NebulaSequentialFile →
    Fs (List SequentialEvent × NebulaSequentialFile)
  | [], file => return ([], file)
  | .read n now :: rest, file => do
      let (reply, next) ← file.read n now
      let (events, last) ← sequentialRun rest next
      return (⟨.read n now, file.pos, next.pos, reply⟩ :: events, last)
  | .skip n :: rest, file => do
      let next := file.skip n
      let (events, last) ← sequentialRun rest next
      return (⟨.skip n, file.pos, next.pos, .ok []⟩ :: events, last)

/-- The bytes of a file. -/
def NebulaInode.content (inode : NebulaInode) (disk : Disk) : List UInt8 :=
  inode.bytesAt disk 0 inode.sizeBytes.toNat

/-- The bytes a call has read or skipped. -/
def SequentialEvent.passed (event : SequentialEvent) (content : List UInt8) : List UInt8 :=
  match event.call, event.reply with
  | .read _ _, .ok bytes => bytes
  | .read _ _, .error _ => []
  | .skip _, _ => (content.drop event.before.toNat).take (event.after.toNat - event.before.toNat)

/-- The calls see the file as a forward cursor does. -/
structure ForwardCursor (state : FsState) (fh : NebulaFile) (events : List SequentialEvent) :
    Prop where
  forward : ∀ event ∈ events,
    event.before ≤ event.after ∧ event.after.toNat ≤ (fh.inode.content state.disk).length
  exact : ∀ event ∈ events, ∀ n now, event.call = .read n now →
    event.reply = .ok (((fh.inode.content state.disk).drop event.before.toNat).take n.toNat) ∧
      event.after.toNat = event.before.toNat +
        min n.toNat ((fh.inode.content state.disk).length - event.before.toNat)
  passes : (events.map fun event => event.passed (fh.inode.content state.disk)).flatten <+:
    fh.inode.content state.disk
  random : ∀ event ∈ events, ∀ now, ∃ fh',
    (randomAccessRead fh event.before (event.after - event.before) now).run state =
      (.ok (.ok (event.passed (fh.inode.content state.disk)), fh'), state)

/-- No skip wraps, on a cursor that is at `pos` of a file of `size` bytes. -/
def SkipsFit (size : Nat) : Nat → List SequentialCall → Prop
  | _, [] => True
  | pos, .read n _ :: rest => SkipsFit size (min (pos + n.toNat) size) rest
  | pos, .skip n :: rest => pos + n.toNat < 2 ^ 64 ∧ SkipsFit size (min (pos + n.toNat) size) rest

/-- The cursor after a call. -/
def cursorNext (size pos : UInt64) : SequentialCall → UInt64
  | .read n _ => pos + min n (size - pos)
  | .skip n => min (pos + n) size

/-- What a call returns. -/
def cursorReply (content : List UInt8) (pos : UInt64) : SequentialCall → List UInt8
  | .read n _ => (content.drop pos.toNat).take n.toNat
  | .skip _ => []

/-- The events of a run. -/
def cursorEvents (content : List UInt8) (size : UInt64) : UInt64 → List SequentialCall →
    List SequentialEvent
  | _, [] => []
  | pos, call :: rest =>
      ⟨call, pos, cursorNext size pos call, .ok (cursorReply content pos call)⟩ ::
        cursorEvents content size (cursorNext size pos call) rest

theorem toNat_min (first second : UInt64) :
    (min first second).toNat = min first.toNat second.toNat := by
  show (if first ≤ second then first else second).toNat = _
  simp only [UInt64.le_iff_toNat_le]
  split_ifs <;> omega

section Cursor

variable {size pos : UInt64} {calls : List SequentialCall} {content : List UInt8} {state : FsState}
  {fh : NebulaFile} {file : NebulaSequentialFile}

theorem toNat_cursorNext_read (inside : pos ≤ size) (n now : UInt64) :
    (cursorNext size pos (.read n now)).toNat = min (pos.toNat + n.toNat) size.toNat := by
  have bound := size.toNat_lt
  rw [UInt64.le_iff_toNat_le] at inside
  rw [cursorNext, UInt64.toNat_add, toNat_min,
    UInt64.toNat_sub_of_le _ _ (UInt64.le_iff_toNat_le.mpr inside), Nat.mod_eq_of_lt (by omega)]
  omega

theorem toNat_cursorNext_skip (n : UInt64) :
    (cursorNext size pos (.skip n)).toNat =
      min ((pos.toNat + n.toNat) % 2 ^ 64) size.toNat := by
  rw [cursorNext, toNat_min, UInt64.toNat_add]

theorem cursorNext_le (inside : pos ≤ size) (call : SequentialCall) :
    cursorNext size pos call ≤ size := by
  rw [UInt64.le_iff_toNat_le]
  cases call with
  | read n now =>
      rw [toNat_cursorNext_read inside]
      exact Nat.min_le_right _ _
  | skip n =>
      rw [toNat_cursorNext_skip]
      exact Nat.min_le_right _ _

theorem NebulaInode.length_bytesAt (inode : NebulaInode) (disk : Disk) (offset n : Nat) :
    (inode.bytesAt disk offset n).length = n := by
  rw [NebulaInode.bytesAt, List.length_map, List.length_range]

theorem NebulaInode.length_content (inode : NebulaInode) (disk : Disk) :
    (inode.content disk).length = inode.sizeBytes.toNat := inode.length_bytesAt disk _ _

/-- A part of the contents. -/
theorem NebulaInode.content_slice (inode : NebulaInode) (disk : Disk) {offset : Nat}
    (inside : offset ≤ inode.sizeBytes.toNat) (n : Nat) :
    ((inode.content disk).drop offset).take n = inode.reads disk offset n := by
  have split := inode.bytesAt_append disk 0 offset (inode.sizeBytes.toNat - offset)
  rw [Nat.add_sub_cancel' inside, Nat.zero_add] at split
  rw [NebulaInode.content, split, List.drop_left' (inode.length_bytesAt disk 0 offset),
    NebulaInode.reads]
  rcases Nat.le_total n (inode.sizeBytes.toNat - offset) with short | long
  · have part := inode.bytesAt_append disk offset n (inode.sizeBytes.toNat - offset - n)
    rw [Nat.add_sub_cancel' short] at part
    rw [part, List.take_left' (inode.length_bytesAt disk offset n), Nat.min_eq_left short]
  · rw [Nat.min_eq_right long, List.take_of_length_le]
    rw [inode.length_bytesAt]
    exact long

/-- The handle of a file that has been read. -/
def NebulaFile.ReadFrom (fh fh' : NebulaFile) : Prop :=
  ∃ time, fh' = { fh with inode := { fh.inode with atimeNs := time } }

theorem NebulaFile.ReadFrom.refl (fh : NebulaFile) : fh.ReadFrom fh := ⟨fh.inode.atimeNs, rfl⟩

theorem NebulaFile.ReadFrom.trans {first second third : NebulaFile} (one : first.ReadFrom second)
    (two : second.ReadFrom third) : first.ReadFrom third := by
  obtain ⟨time, rfl⟩ := one
  obtain ⟨time', rfl⟩ := two
  exact ⟨time', rfl⟩

/-- A clamped read below the adapter: its own clamp never disagrees. -/
theorem FsState.Serves.clamped (serves : state.Serves fh.inode)
    (readable : fh.flags &&& openReadOnly ≠ 0) {fh' : NebulaFile} (same : fh.ReadFrom fh')
    (inside : pos ≤ fh.inode.sizeBytes) (n now : UInt64) :
    ∃ fh'', fh.ReadFrom fh'' ∧
      (nebulaFileRead fh' pos (min n (fh.inode.sizeBytes - pos)).toNat now).run state =
        (.ok (.ok (((fh.inode.content state.disk).drop pos.toNat).take n.toNat), fh''), state) := by
  obtain ⟨time, rfl⟩ := same
  have bound := fh.inode.sizeBytes.toNat_lt
  have low := UInt64.le_iff_toNat_le.mp inside
  have clamp : (min n (fh.inode.sizeBytes - pos)).toNat =
      min n.toNat (fh.inode.sizeBytes.toNat - pos.toNat) := by
    rw [toNat_min, UInt64.toNat_sub_of_le _ _ inside]
  have serves' : state.Serves { fh.inode with atimeNs := time } := ⟨serves.1, serves.2⟩
  obtain ⟨time', ran⟩ := @FsState.Serves.read state ⟨{ fh.inode with atimeNs := time }, fh.flags,
    fh.dirty⟩ serves' readable pos (min n.toNat (fh.inode.sizeBytes.toNat - pos.toNat))
    (by omega) now
  refine ⟨_, ⟨time', rfl⟩, ?_⟩
  rw [clamp, ran, NebulaInode.content_slice _ _ low]
  have reads : NebulaInode.reads { fh.inode with atimeNs := time } state.disk pos.toNat
      (min n.toNat (fh.inode.sizeBytes.toNat - pos.toNat)) =
        fh.inode.reads state.disk pos.toNat n.toNat := by
    show fh.inode.bytesAt state.disk pos.toNat _ = fh.inode.bytesAt state.disk pos.toNat _
    rw [Nat.min_assoc, Nat.min_self]
  rw [reads]

theorem sequentialRead_run (serves : state.Serves fh.inode)
    (readable : fh.flags &&& openReadOnly ≠ 0) (same : fh.ReadFrom file.fh)
    (whole : file.size = fh.inode.sizeBytes) (inside : file.pos ≤ file.size) (n now : UInt64) :
    ∃ fh', fh.ReadFrom fh' ∧ (file.read n now).run state =
      (.ok (.ok (cursorReply (fh.inode.content state.disk) file.pos (.read n now)),
        ⟨fh', cursorNext file.size file.pos (.read n now), file.size⟩), state) := by
  have length := fh.inode.length_content state.disk
  have low := UInt64.le_iff_toNat_le.mp inside
  rw [NebulaSequentialFile.read]
  split_ifs with past
  · have stays : cursorNext file.size file.pos (.read n now) = file.pos := by
      rw [UInt64.le_iff_toNat_le] at past
      rw [← UInt64.toNat_inj, toNat_cursorNext_read inside]
      omega
    refine ⟨file.fh, same, ?_⟩
    rw [run_pure, stays, cursorReply, List.drop_of_length_le, List.take_nil]
    rw [length, ← whole]
    exact UInt64.le_iff_toNat_le.mp past
  · obtain ⟨fh', same', ran⟩ := serves.clamped readable same (whole ▸ inside) n now
    refine ⟨fh', same', ?_⟩
    rw [whole, run_bind_ok ran]
    have moved : file.pos + UInt64.ofNat
        (((fh.inode.content state.disk).drop file.pos.toNat).take n.toNat).length =
          cursorNext fh.inode.sizeBytes file.pos (.read n now) := by
      rw [cursorNext, List.length_take, List.length_drop, length]
      congr 1
      rw [← UInt64.toNat_inj, toNat_min, UInt64.toNat_sub_of_le _ _ (whole ▸ inside),
        UInt64.toNat_ofNat_of_lt' (by have := n.toNat_lt; show _ < 2 ^ 64; omega)]
    simp only [run_pure, moved]
    rw [cursorReply]

/-- Every run returns, with the events of the pure cursor. -/
theorem sequentialRun_eq (serves : state.Serves fh.inode)
    (readable : fh.flags &&& openReadOnly ≠ 0) (same : fh.ReadFrom file.fh)
    (whole : file.size = fh.inode.sizeBytes) (inside : file.pos ≤ file.size) :
    ∃ last, (sequentialRun calls file).run state =
      (.ok (cursorEvents (fh.inode.content state.disk) file.size file.pos calls, last), state) := by
  induction calls generalizing file with
  | nil => exact ⟨file, rfl⟩
  | cons call rest ih =>
      have inside' := cursorNext_le inside call
      cases call with
      | read n now =>
          obtain ⟨fh', same', ran⟩ := sequentialRead_run serves readable same whole inside n now
          obtain ⟨last, rest⟩ := @ih ⟨fh', cursorNext file.size file.pos (.read n now), file.size⟩
            same' whole inside'
          refine ⟨last, ?_⟩
          rw [sequentialRun, run_bind_ok ran]
          simp only [run_bind_ok rest]
          rfl
      | skip n =>
          obtain ⟨last, rest⟩ := @ih (file.skip n) same whole inside'
          refine ⟨last, ?_⟩
          rw [sequentialRun]
          simp only [run_bind_ok rest]
          rfl

/-- The event of a call of the pure cursor. -/
def SequentialEvent.IsCursor (event : SequentialEvent) (content : List UInt8)
    (size : UInt64) : Prop :=
  event.before ≤ size ∧ event.after = cursorNext size event.before event.call ∧
    event.reply = .ok (cursorReply content event.before event.call)

theorem isCursor_of_mem (inside : pos ≤ size) {event : SequentialEvent}
    (listed : event ∈ cursorEvents content size pos calls) : event.IsCursor content size := by
  induction calls generalizing pos with
  | nil => cases listed
  | cons call rest ih =>
      rcases List.mem_cons.mp listed with rfl | listed
      · exact ⟨inside, rfl, rfl⟩
      · exact ih (cursorNext_le inside call) listed

/-- What a call has passed is the part of the contents the cursor has moved over. -/
theorem SequentialEvent.IsCursor.passed_eq {event : SequentialEvent}
    (cursor : event.IsCursor content size) (length : content.length = size.toNat) :
    event.passed content =
      (content.drop event.before.toNat).take (event.after.toNat - event.before.toNat) := by
  obtain ⟨inside, after, reply⟩ := cursor
  have low := UInt64.le_iff_toNat_le.mp inside
  obtain ⟨call, before, next, answer⟩ := event
  cases call with
  | skip n => rfl
  | read n now =>
      simp only at inside after reply low ⊢
      rw [reply, after, toNat_cursorNext_read inside]
      show (content.drop before.toNat).take n.toNat = _
      rw [List.take_eq_take_iff, List.length_drop, length]
      omega

theorem skipsFit_of_forward (inside : pos ≤ size)
    (forward : ∀ event ∈ cursorEvents content size pos calls, event.before ≤ event.after) :
    SkipsFit size.toNat pos.toNat calls := by
  induction calls generalizing pos with
  | nil => trivial
  | cons call rest ih =>
      have first : pos ≤ cursorNext size pos call := forward _ (List.mem_cons_self ..)
      have fits := ih (cursorNext_le inside call)
        fun event listed => forward event (List.mem_cons_of_mem _ listed)
      rw [UInt64.le_iff_toNat_le] at first
      cases call with
      | read n now =>
          rw [toNat_cursorNext_read inside] at fits
          exact fits
      | skip n =>
          have bound := pos.toNat_lt
          have bound' := n.toNat_lt
          rw [toNat_cursorNext_skip] at first fits
          have small : pos.toNat + n.toNat < 2 ^ 64 := by omega
          rw [Nat.mod_eq_of_lt small] at fits
          exact ⟨small, fits⟩

theorem forward_of_skipsFit (inside : pos ≤ size) (fits : SkipsFit size.toNat pos.toNat calls)
    {event : SequentialEvent} (listed : event ∈ cursorEvents content size pos calls) :
    event.before ≤ event.after := by
  induction calls generalizing pos with
  | nil => cases listed
  | cons call rest ih =>
      have low := UInt64.le_iff_toNat_le.mp inside
      have moved : pos ≤ cursorNext size pos call ∧
          SkipsFit size.toNat (cursorNext size pos call).toNat rest := by
        rw [UInt64.le_iff_toNat_le]
        cases call with
        | read n now =>
            rw [toNat_cursorNext_read inside]
            exact ⟨by omega, fits⟩
        | skip n =>
            rw [toNat_cursorNext_skip, Nat.mod_eq_of_lt fits.1]
            exact ⟨by omega, fits.2⟩
      rcases List.mem_cons.mp listed with rfl | listed
      · exact moved.1
      · exact ih (cursorNext_le inside call) moved.2 listed

theorem passes_of_forward (inside : pos ≤ size) (length : content.length = size.toNat)
    (forward : ∀ event ∈ cursorEvents content size pos calls, event.before ≤ event.after) :
    ((cursorEvents content size pos calls).map fun event => event.passed content).flatten <+:
      content.drop pos.toNat := by
  induction calls generalizing pos with
  | nil => exact List.nil_prefix
  | cons call rest ih =>
      have first : pos ≤ cursorNext size pos call := forward _ (List.mem_cons_self ..)
      have later := ih (cursorNext_le inside call)
        fun event listed => forward event (List.mem_cons_of_mem _ listed)
      rw [UInt64.le_iff_toNat_le] at first
      have head := (@isCursor_of_mem size pos (call :: rest) content inside _
        (List.mem_cons_self ..)).passed_eq length
      rw [cursorEvents, List.map_cons, List.flatten_cons, head]
      obtain ⟨behind, joined⟩ := later
      refine ⟨behind, ?_⟩
      rw [List.append_assoc, joined]
      conv_rhs => rw [← List.take_append_drop ((cursorNext size pos call).toNat - pos.toNat)
        (content.drop pos.toNat), List.drop_drop, Nat.add_sub_cancel' first]

theorem randomAccessRead_run (serves : state.Serves fh.inode)
    (readable : fh.flags &&& openReadOnly ≠ 0) (inside : pos ≤ fh.inode.sizeBytes)
    (n now : UInt64) :
    ∃ fh', (randomAccessRead fh pos n now).run state =
      (.ok (.ok (((fh.inode.content state.disk).drop pos.toNat).take n.toNat), fh'), state) := by
  have unfolded : randomAccessRead fh pos n now = if nebulaFsFileSize fh ≤ pos then
      pure (.ok [], fh) else nebulaFileRead fh pos (min n (nebulaFsFileSize fh - pos)).toNat now :=
        rfl
  rw [unfolded]
  split_ifs with past
  · refine ⟨fh, ?_⟩
    rw [run_pure, List.drop_of_length_le, List.take_nil]
    rw [fh.inode.length_content]
    exact UInt64.le_iff_toNat_le.mp past
  · obtain ⟨fh', -, ran⟩ := serves.clamped readable (.refl fh) inside n now
    exact ⟨fh', ran⟩

/-- A sequential file whose blocks the device serves is a forward cursor over its contents, in a run
of reads and skips, exactly when no skip wraps. -/
theorem sequential_forward_iff (serves : state.Serves fh.inode)
    (readable : fh.flags &&& openReadOnly ≠ 0) (calls : List SequentialCall) :
    ∃ events last, (sequentialRun calls (newSequentialFile fh)).run state =
        (.ok (events, last), state) ∧
      (ForwardCursor state fh events ↔ SkipsFit fh.inode.sizeBytes.toNat 0 calls) := by
  have start : (0 : UInt64) ≤ fh.inode.sizeBytes := by
    rw [UInt64.le_iff_toNat_le]
    exact Nat.zero_le _
  have length := fh.inode.length_content state.disk
  obtain ⟨last, ran⟩ := @sequentialRun_eq calls state fh (newSequentialFile fh) serves readable
    (.refl fh) rfl start
  refine ⟨_, last, ran, fun cursor => skipsFit_of_forward start fun event listed =>
    (cursor.forward event listed).1, fun fits => ?_⟩
  have forward {event : SequentialEvent} (listed : event ∈ cursorEvents
      (fh.inode.content state.disk) fh.inode.sizeBytes 0 calls) : event.before ≤ event.after :=
    forward_of_skipsFit start fits listed
  refine ⟨fun event listed => ⟨forward listed, ?_⟩, fun event listed n now read => ?_, ?_,
    fun event listed now => ?_⟩
  · obtain ⟨inside, after, -⟩ := isCursor_of_mem start listed
    rw [length, after, ← UInt64.le_iff_toNat_le]
    exact cursorNext_le inside _
  · obtain ⟨inside, after, reply⟩ := isCursor_of_mem start listed
    have low := UInt64.le_iff_toNat_le.mp inside
    rw [read] at after reply
    refine ⟨reply, ?_⟩
    rw [after, toNat_cursorNext_read inside, length]
    omega
  · exact passes_of_forward start length fun event listed => forward listed
  · have cursor := isCursor_of_mem start listed
    obtain ⟨fh', read⟩ :=
      randomAccessRead_run serves readable cursor.1 (event.after - event.before) now
    refine ⟨fh', ?_⟩
    rw [read, cursor.passed_eq length, UInt64.toNat_sub_of_le _ _ (forward listed)]

end Cursor

/-- A file of ten bytes: the last one is written on a fresh device. -/
theorem tenByteFile : ∃ number before fh state,
    (nebulaFileWrite (createdFile number 0 0) 9 [7] 0).run before = (.ok (.ok 1, fh), state) ∧
      state.Serves fh.inode ∧ fh.flags &&& openReadOnly ≠ 0 ∧ fh.inode.sizeBytes = 10 := by
  obtain ⟨layout, mount, number, before, total, -, -, first⟩ :=
    @plainDisk_created 65536 (by decide) (by decide) (by decide)
  obtain ⟨lba, inode, after, appended, wrote, solid, backs, -⟩ :=
    first.write_byte (by rw [total]; decide) 9 (by decide) 7 0
  obtain ⟨index, -, rfl⟩ := Option.map_eq_some_iff.mp appended
  refine ⟨number, before, _, after, wrote, FsState.Backs.serves solid backs,
    show openReadWrite &&& openReadOnly ≠ 0 by decide, ?_⟩
  exact NebulaInode.written_sizeBytes (show (0 : UInt64) < 10 by decide)

theorem sequential_forward_ten : ∃ number before fh state,
    (nebulaFileWrite (createdFile number 0 0) 9 [7] 0).run before = (.ok (.ok 1, fh), state) ∧
      state.Serves fh.inode ∧ fh.flags &&& openReadOnly ≠ 0 ∧
      ∃ events last,
        (sequentialRun [.skip 4, .read 3 0, .read 100 0] (newSequentialFile fh)).run state =
          (.ok (events, last), state) ∧
        (ForwardCursor state fh events ↔
          SkipsFit fh.inode.sizeBytes.toNat 0 [.skip 4, .read 3 0, .read 100 0]) := by
  obtain ⟨number, before, fh, state, wrote, serves, readable, size⟩ := tenByteFile
  exact ⟨number, before, fh, state, wrote, serves, readable,
    sequential_forward_iff serves readable [.skip 4, .read 3 0, .read 100 0]⟩

/-- On a file of ten bytes, a skip by `2 ^ 64 - 1` from position one goes back to the start. -/
theorem sequential_skip_wraps : ∃ number before fh state,
    (nebulaFileWrite (createdFile number 0 0) 9 [7] 0).run before = (.ok (.ok 1, fh), state) ∧
      state.Serves fh.inode ∧ fh.flags &&& openReadOnly ≠ 0 ∧ fh.inode.sizeBytes = 10 ∧
      ∃ events last,
        (sequentialRun [.skip 1, .skip 0xFFFFFFFFFFFFFFFF] (newSequentialFile fh)).run state =
          (.ok (events, last), state) ∧ ¬ ForwardCursor state fh events := by
  obtain ⟨number, before, fh, state, wrote, serves, readable, size⟩ := tenByteFile
  have start : (0 : UInt64) ≤ fh.inode.sizeBytes := by
    rw [size]
    decide
  obtain ⟨last, ran⟩ := @sequentialRun_eq [.skip 1, .skip 0xFFFFFFFFFFFFFFFF] state fh
    (newSequentialFile fh) serves readable (.refl fh) rfl start
  refine ⟨number, before, fh, state, wrote, serves, readable, size, _, last, ran, fun cursor => ?_⟩
  obtain ⟨-, fits, -⟩ := skipsFit_of_forward start fun event listed =>
    (cursor.forward event listed).1
  rw [size] at fits
  exact absurd fits (by decide)

end MiniFs
