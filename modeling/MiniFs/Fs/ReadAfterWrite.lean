import MiniFs.Fs.CreateOutcome
import MiniFs.Fs.Isolation
import MiniFs.Fs.Offsets
import MiniFs.Fs.OneHandle

/-!
# Reading what was written

With at most one handle on a file and writes that end below 2^64, a file is what the acknowledged
writes make of it: its size is the furthest end of a full write, the acknowledged bytes are read
back, and blocks that no write has covered read as zero.  This holds over other files, closing,
opening and mounting again.
-/

namespace MiniFs

open Fs

/-- A file as its client knows it: its size, the acknowledged bytes, and the blocks
under a write. -/
structure FileView where
  size : Nat
  bytes : Nat → Option UInt8
  touched : Nat → Bool

/-- A file that has just been created. -/
def FileView.empty : FileView := ⟨0, fun _ => none, fun _ => false⟩

/-- A write of which the first `n` bytes are acknowledged. -/
def FileView.write (view : FileView) (offset : Nat) (data : List UInt8) (n : Nat) : FileView where
  size := if data ≠ [] ∧ n = data.length then max view.size (offset + n) else view.size
  bytes pos := if offset ≤ pos ∧ pos < offset + n then data[pos - offset]? else view.bytes pos
  touched blk := view.touched blk ||
    decide (offset / 4096 ≤ blk ∧ blk * 4096 < offset + data.length)

/-- The bytes a write has acknowledged. -/
def FsResult.written : FsResult → Nat
  | .count n => n
  | _ => 0

/-- What a client knows of the files after a call. -/
def FsSystem.view (system : FsSystem) (call : FsCall) (result : FsResult)
    (views : Name → FileView) : Name → FileView :=
  match call, result with
  | .create _ name _, .handle _ => Function.update views name .empty
  | .write index offset data, result =>
      match system.handles index with
      | none => views
      | some handle => Function.update views handle.name
          ((views handle.name).write offset.toNat data result.written)
  | _, _ => views

/-- A client with at most one handle on a file, whose writes end below 2^64. -/
def FsCall.Plain (system : FsSystem) (call : FsCall) : Prop :=
  call.OneHandle system ∧ ∀ {index offset data}, call = .write index offset data →
    offset.toNat + data.length < 2 ^ 64

/-- The bytes of a read at an offset are those of the file. -/
structure FileView.ReadBy (view : FileView) (offset len : Nat) (bytes : List UInt8) : Prop where
  length : bytes.length = min len (view.size - offset)
  acknowledged : ∀ index byte, index < bytes.length → view.bytes (offset + index) = some byte →
    bytes[index]? = some byte
  untouched : ∀ index < bytes.length, view.touched ((offset + index) / 4096) = false →
    bytes[index]? = some 0

/-- The inode of a file as its next reader has it: that of its handle, or the stored one. -/
inductive FsSystem.Current (layout : NebulaLayout) (system : FsSystem) : Nat → NebulaInode → Prop
  | opened {index : Nat} {handle : Handle} (held : system.handles index = some handle) :
      Current layout system handle.file.number handle.file.inode
  | stored {number : Nat} (closed : ∀ index handle, system.handles index = some handle →
      handle.file.number ≠ number) :
      Current layout system number (inodeAt layout system.state.disk number)

/-- The inode and its blocks are what the client knows. -/
structure FileView.Shown (view : FileView) (inode : NebulaInode) (disk : Disk) : Prop where
  size : inode.sizeBytes.toNat = view.size
  bytes : ∀ {pos byte}, view.bytes pos = some byte → ∃ lba, inode.blockOf (pos / 4096) = some lba ∧
    disk.content lba (Fin.ofNat 4096 pos) = byte
  holes : ∀ {blk}, view.touched blk = false → inode.blockOf blk = none

/-- Every file is what the client knows. -/
def Views (layout : NebulaLayout) (system : FsSystem) (entries : Entries)
    (views : Name → FileView) :
    Prop :=
  ∀ slot name number inode, entries slot = some (name, number) →
    system.Current layout number inode → (views name).Shown inode system.state.disk

namespace FileView

variable {view : FileView} {inode inode' : NebulaInode} {disk disk' : Disk}

theorem shown_empty (extents : ∀ index, inode.extents index = .zero) (size : inode.sizeBytes = 0) :
    empty.Shown inode disk := by
  obtain ⟨-, -, holes⟩ := NebulaInode.mapped_of_empty extents
  refine ⟨by rw [size]; rfl, ?_, fun _ => holes _⟩
  intro pos byte known
  exact absurd known (Option.some_ne_none byte).symm

theorem Shown.congr (shown : view.Shown inode disk) (same : inode'.SameFile inode)
    (blocks : ∀ blk lba, inode.blockOf blk = some lba → disk'.content lba = disk.content lba) :
    view.Shown inode' disk' := by
  have maps := NebulaInode.blockOf_congr same.1
  refine ⟨by rw [same.2]; exact shown.size, ?_, ?_⟩
  · intro pos byte known
    obtain ⟨lba, mapped, content⟩ := shown.bytes known
    exact ⟨lba, by rw [maps]; exact mapped, by rw [blocks _ _ mapped]; exact content⟩
  · intro blk clear
    rw [maps]
    exact shown.holes clear

/-- A write that has acknowledged nothing. -/
theorem Shown.nothing (shown : view.Shown inode disk) (offset : Nat) (data : List UInt8) :
    (view.write offset data 0).Shown inode disk := by
  refine ⟨?_, ?_, ?_⟩
  · rw [write, if_neg (by rintro ⟨some, none⟩; exact some (List.length_eq_zero_iff.mp none.symm))]
    exact shown.size
  · intro pos byte known
    simp only [write] at known
    rw [if_neg (by omega)] at known
    exact shown.bytes known
  · intro blk clear
    simp only [write, Bool.or_eq_false_iff] at clear
    exact shown.holes clear.1

/-- A write, as far as it came. -/
theorem Shown.write (shown : view.Shown inode disk) {uuid : Bytes 16} {layout : NebulaLayout}
    {before after : FsState} (start : before.disk = disk) {offset : Nat} {data : List UInt8}
    {n : Nat} (grown : Grown uuid layout before inode after inode')
    (filled : Filled layout before offset data n after inode')
    (within : inode.MapsWithin inode' offset data.length)
    {last : NebulaInode} (extents : last.extents = inode'.extents)
    (size : last.sizeBytes.toNat = (view.write offset data n).size) :
    (view.write offset data n).Shown last after.disk := by
  have maps := NebulaInode.blockOf_congr extents
  refine ⟨size, ?_, ?_⟩
  · intro pos byte known
    simp only [FileView.write] at known
    rw [maps]
    split_ifs at known with covers
    · obtain ⟨lba, mapped, content⟩ := filled.covered pos covers.1 covers.2
      refine ⟨lba, mapped, ?_⟩
      rw [content, List.getD_eq_getElem?_getD, known, Option.getD_some]
    · obtain ⟨lba, mapped, content⟩ := shown.bytes known
      have mapped' := grown.blockOf _ _ mapped
      have inData := grown.inData lba (grown.mapped.holds_of_blockOf mapped')
      refine ⟨lba, mapped', ?_⟩
      rw [filled.kept lba (not_inBitmap_of_inData grown.solid.sound inData), start, content]
      intro blk here
      rw [grown.mapped.blockOf_inj here mapped', Filled.fin_ofNat_val]
      omega
  · intro blk clear
    simp only [FileView.write, Bool.or_eq_false_iff, decide_eq_false_iff_not] at clear
    rw [maps]
    by_contra mapped
    exact (within blk mapped).elim (fun older => older (shown.holes clear.1)) clear.2

theorem size_write_short {offset n : Nat} {data : List UInt8} (less : n < data.length) :
    (view.write offset data n).size = view.size := by
  rw [FileView.write, if_neg (by omega)]

theorem size_write_full {offset : Nat} {data : List UInt8} (some : data ≠ []) :
    (view.write offset data data.length).size = max view.size (offset + data.length) := by
  rw [FileView.write, if_pos ⟨some, rfl⟩]

end FileView

/-! ## What effects keep -/

section Keep

variable {uuid : Bytes 16} {layout : NebulaLayout} {origin : Disk} {system : FsSystem}
  {entries : Entries} {views : Name → FileView}

namespace FsSystem.Current

variable {number : Nat} {inode : NebulaInode}

theorem holder (current : system.Current layout number inode) (live : entries.Live number) :
    system.Holder layout entries number inode := by
  cases current with
  | opened held => exact .opened held
  | stored => exact .stored live

/-- The file of the handle that is changed. -/
theorem of_own {state : FsState} {index : Nat} {handle : Handle} {next : Option Handle}
    (current : ((system.withState state).setHandle index next).Current layout number inode)
    (one : OneHandle layout system entries) (held : system.handles index = some handle)
    (same : number = handle.file.number)
    (numbered : ∀ found, next = some found → found.file.number = handle.file.number) :
    (∃ found, next = some found ∧ inode = found.file.inode) ∨
      next = none ∧ inode = inodeAt layout state.disk number := by
  cases current with
  | @opened other found held' =>
      rcases FsSystem.handles_setHandle held' with ⟨-, is⟩ | ⟨apart, older⟩
      · exact .inl ⟨found, is, rfl⟩
      · exact absurd (one.alone older held same) apart
  | stored closed =>
      cases next with
      | none => exact .inr ⟨rfl, rfl⟩
      | some found =>
          exact absurd ((numbered found rfl).trans same.symm)
            (closed index found (Function.update_self ..))

/-- The file of a handle that is added. -/
theorem of_added {state : FsState} {index : Nat} {added : Handle}
    (current : ((system.withState state).setHandle index (some added)).Current layout number inode)
    (fresh : ∀ other handle, system.handles other = some handle →
      handle.file.number ≠ added.file.number) (same : number = added.file.number) :
    inode = added.file.inode := by
  cases current with
  | @opened other found held' =>
      rcases FsSystem.handles_setHandle held' with ⟨-, is⟩ | ⟨-, older⟩
      · rw [Option.some.inj is]
      · exact absurd same (fresh other found older)
  | stored closed => exact absurd same.symm (closed index added (Function.update_self ..))

/-- A variable is changed that has nothing to do with the file. -/
theorem of_setHandle {state : FsState} {index : Nat} {next : Option Handle}
    (current : ((system.withState state).setHandle index next).Current layout number inode)
    (before : ∀ handle, system.handles index = some handle → handle.file.number ≠ number)
    (after : ∀ handle, next = some handle → handle.file.number ≠ number)
    (stored : inodeAt layout state.disk number = inodeAt layout system.state.disk number) :
    system.Current layout number inode := by
  cases current with
  | opened held =>
      rcases FsSystem.handles_setHandle held with ⟨-, same⟩ | ⟨-, older⟩
      · exact absurd rfl (after _ same)
      · exact .opened older
  | stored closed =>
      simp only [FsSystem.setHandle, FsSystem.withState, stored] at closed ⊢
      refine .stored fun other handle held => ?_
      by_cases here : other = index
      · rw [here] at held
        exact before handle held
      · refine closed other handle ?_
        rwa [Function.update_of_ne here]

end FsSystem.Current

theorem FsInv.current_inData (inv : FsInv uuid layout origin system entries) {slot : Nat}
    {name : Name} {number : Nat} {inode : NebulaInode} (listed : entries slot = some (name, number))
    (current : system.Current layout number inode) {blk lba : Nat}
    (mapped : inode.blockOf blk = some lba) : InData layout lba := by
  have holder : system.Holder layout entries number inode :=
    current.holder (.inr ⟨slot, name, listed⟩)
  exact inv.owners.inData holder ((inv.owners.mapped holder).holds_of_blockOf mapped)

/-- Every file is as it was, or it is what the client now knows. -/
theorem Views.kept (known : Views layout system entries views)
    (inv : FsInv uuid layout origin system entries) {after : FsSystem} {entries' : Entries}
    {views' : Name → FileView}
    (blocks : ∀ lba, InData layout lba →
      after.state.disk.content lba = system.state.disk.content lba)
    (older : ∀ {slot name number inode}, entries' slot = some (name, number) →
      after.Current layout number inode → (views' name).Shown inode after.state.disk ∨
        views' name = views name ∧ (∃ slot, entries slot = some (name, number)) ∧
          ∃ old, system.Current layout number old ∧ inode.SameFile old) :
    Views layout after entries' views' := by
  intro slot name number inode listed current
  rcases older listed current with shown | ⟨view, ⟨slot', listed'⟩, old, current', same⟩
  · exact shown
  · rw [view]
    exact (known _ _ _ _ listed' current').congr same fun blk lba mapped =>
      blocks lba (inv.current_inData listed' current' mapped)

/-- One file is changed, by its handle. -/
theorem Views.change (known : Views layout system entries views)
    (inv : FsInv uuid layout origin system entries) {index : Nat} {handle : Handle}
    (held : system.handles index = some handle) {state : FsState} {next : Option Handle}
    {views' : Name → FileView}
    (numbered : ∀ found, next = some found → found.file.number = handle.file.number)
    (inodes : ∀ {number}, number < layout.inodePageBlockCount → number ≠ handle.file.number →
      inodeAt layout state.disk number = inodeAt layout system.state.disk number)
    (others : ∀ name, name ≠ handle.name → views' name = views name)
    (blocks : ∀ lba, InData layout lba → system.state.taken lba = true →
      ¬ handle.file.inode.Holds lba → state.disk.content lba = system.state.disk.content lba)
    (mine : ∀ {inode}, ((system.withState state).setHandle index next).Current layout
      handle.file.number inode → (views' handle.name).Shown inode state.disk) :
    Views layout ((system.withState state).setHandle index next) entries views' := by
  intro slot name number inode listed current
  have names : entries.Names name number := .inr ⟨slot, listed⟩
  have live : entries.Live number := .inr ⟨slot, name, listed⟩
  by_cases same : number = handle.file.number
  · subst same
    rw [← (inv.handle_name_iff held names).mpr rfl]
    exact mine current
  · have current' := current.of_setHandle
      (fun found held' => by rw [Option.some.inj (held'.symm.trans held)]; exact Ne.symm same)
      (fun found is => by rw [numbered found is]; exact Ne.symm same)
      (inodes (inv.live_lt live) same)
    rw [others name fun is => same ((inv.handle_name_iff held names).mp is.symm).symm]
    refine (known _ _ _ _ listed current').congr ⟨rfl, rfl⟩ fun blk lba mapped => ?_
    have holder := current'.holder live
    have holds := (inv.owners.mapped holder).holds_of_blockOf mapped
    refine blocks lba (inv.owners.inData holder holds) (inv.owners.taken holder holds) fun own => ?_
    exact same (inv.owners.apart holder (.opened held) holds own)

theorem FsSystem.view_idle {call : FsCall} {result : FsResult} (idle : call.Idle result)
    {name : Name} {inode : NebulaInode} {disk : Disk} (shown : (views name).Shown inode disk) :
    (system.view call result views name).Shown inode disk := by
  have write : ∀ {index offset data}, result.written = 0 → call = .write index offset data →
      (system.view call result views name).Shown inode disk := by
    rintro index offset data nothing rfl
    simp only [FsSystem.view]
    cases system.handles index with
    | none => exact shown
    | some handle =>
        by_cases here : name = handle.name
        · rw [here] at shown ⊢
          simp only [Function.update_self, nothing]
          exact shown.nothing _ _
        · simp only [Function.update_of_ne here]
          exact shown
  cases call with
  | write index offset data =>
      refine write ?_ rfl
      cases result with
      | count n => exact idle.2
      | error | done | handle | bytes | inode | items => rfl
  | create index name mode =>
      cases result with
      | handle file => exact absurd idle id
      | error | done | count | bytes | inode | items => exact shown
  | «open» | read | close | delete | lookup | readdir | remount => exact shown

/-- Names and stored inodes of the files that are still there. -/
theorem Views.of_state (known : Views layout system entries views)
    (inv : FsInv uuid layout origin system entries) {state : FsState}
    (blocks : ∀ lba, InData layout lba → state.disk.content lba = system.state.disk.content lba)
    (inodes : ∀ {number}, entries.Live number →
      inodeAt layout state.disk number = inodeAt layout system.state.disk number) :
    Views layout (system.withState state) entries views := by
  refine known.kept inv blocks fun {slot name number inode} listed current => ?_
  refine .inr ⟨rfl, ⟨slot, listed⟩, ?_⟩
  cases current with
  | opened held => exact ⟨_, .opened held, rfl, rfl⟩
  | stored closed =>
      refine ⟨_, .stored closed, ?_⟩
      simp only [FsSystem.withState, inodes (.inr ⟨slot, name, listed⟩)]
      exact ⟨rfl, rfl⟩

theorem Views.created (known : Views layout system entries views)
    (inv : FsInv uuid layout origin system entries) {index : Nat}
    (empty : system.handles index = none) {name : Name} {slot number : Nat}
    {writes : List (Nat × Block)} {mode : UInt32} {now : UInt64}
    (made : Created layout system.state.disk entries name slot number
      (freshInode number inodeTypeFile mode now) writes) :
    Views layout
      ((system.withState (system.state.withDisk (system.state.disk.push writes))).setHandle index
        (some ⟨name, createdFile number mode now⟩))
      (Function.update entries slot (some (name, number)))
      (Function.update views name FileView.empty) := by
  have numbered : (createdFile number mode now).number = number :=
    toNat_ofNat_inode inv.solid.sound made.bounded
  have older : ∀ {number'}, entries.Live number' → number' ≠ number := by
    rintro number' (root | listed) rfl
    · exact absurd root made.positive.ne'
    · exact made.unlisted listed
  refine known.kept inv (fun lba data => made.inside.data_kept _ data) ?_
  intro slot' name' number' inode listed current
  by_cases here : slot' = slot
  · rw [here, Function.update_self, Option.some.injEq, Prod.mk.injEq] at listed
    left
    rw [current.of_added (fun other handle held => by
      rw [numbered]
      exact older (inv.named held).1.live) (listed.2.symm.trans numbered.symm), ← listed.1,
      Function.update_self]
    exact FileView.shown_empty (createdFile_extents number mode now) rfl
  · rw [Function.update_of_ne here] at listed
    have apart : number' ≠ number := older (.inr ⟨slot', name', listed⟩)
    have different : name' ≠ name := fun same => made.absent slot' number' (same ▸ listed)
    refine .inr ⟨Function.update_of_ne different .., ⟨slot', listed⟩, inode, ?_, rfl, rfl⟩
    refine current.of_setHandle (fun handle held => ?_) (fun handle is => ?_) ?_
    · rw [empty] at held
      contradiction
    · rw [← Option.some.inj is, numbered]
      exact apart.symm
    · rw [FsState.disk_withDisk, made.inodes _ (inv.live_lt (.inr ⟨slot', name', listed⟩)),
        if_neg apart]

theorem Views.opened (known : Views layout system entries views)
    (inv : FsInv uuid layout origin system entries) {index : Nat}
    (empty : system.handles index = none) {name : Name} {number : Nat} {flags : UInt32}
    (names : entries.Names name number)
    (fresh : ∀ other handle, system.handles other = some handle → handle.name ≠ name) :
    Views layout (system.setHandle index
      (some ⟨name, ⟨inodeAt layout system.state.disk number, flags, false⟩⟩)) entries views := by
  have numbered := inv.live_number names.live
  have apart : ∀ other handle, system.handles other = some handle → handle.file.number ≠ number :=
    fun other handle held same =>
      fresh other handle held ((inv.handle_name_iff held names).mpr same)
  refine known.kept inv (fun _ _ => rfl) ?_
  intro slot name' number' inode listed current
  refine .inr ⟨rfl, ⟨slot, listed⟩, inode, ?_, rfl, rfl⟩
  have current : ((system.withState system.state).setHandle index
      (some ⟨name, ⟨inodeAt layout system.state.disk number, flags, false⟩⟩)).Current layout number'
        inode := current
  by_cases same : number' = number
  · rw [current.of_added (fun other handle held => by
      simp only [NebulaFile.number, numbered]
      exact apart other handle held) (by simp only [NebulaFile.number, numbered, same]), same]
    exact .stored apart
  · refine current.of_setHandle (fun handle held => ?_) (fun handle is => ?_) rfl
    · rw [empty] at held
      contradiction
    · rw [← Option.some.inj is]
      simp only [NebulaFile.number, numbered]
      exact Ne.symm same

theorem Views.deleted (known : Views layout system entries views)
    (inv : FsInv uuid layout origin system entries) {name : Name} {slot number : Nat}
    {after : FsState} {writes : List (Nat × Block)}
    (closed : ∀ index handle, system.handles index = some handle → handle.name ≠ name)
    (listed : entries slot = some (name, number))
    (disk : after.disk = ((system.state.disk.push [slotWrite layout system.state.disk slot .zero,
      headerWrite layout system.state.disk (-1)]).push writes).push
        [(layout.inodePageLba + number, zeroBlock)])
    (pages : ∀ write ∈ writes, InBitmap layout write.1) :
    Views layout ((system.withState after).dropHandles name) (Function.update entries slot none)
      views := by
  have sound := inv.solid.sound
  obtain ⟨-, inodes⟩ := inv.dir.unlist sound listed pages
  rw [← disk] at inodes
  have keeps : ∀ {index handle}, system.handles index = some handle →
      ((system.withState after).dropHandles name).handles index = some handle := by
    intro index handle held
    simp only [FsSystem.dropHandles, FsSystem.withState, held]
    exact Option.filter_eq_some_iff.mpr ⟨rfl, decide_eq_true (closed index handle held)⟩
  refine known.kept inv (fun lba data => ?_) ?_
  · simp only [FsSystem.dropHandles, FsSystem.withState]
    rw [disk, (DirOk.metaWrites_inode sound (inv.live_lt (.inr ⟨slot, name, listed⟩))
        zeroBlock).data_kept _ data, data_kept_of_pages sound pages _ data,
      (DirOk.metaWrites_entry sound (inv.dir.inside listed).2 .zero (-1)).data_kept _ data]
  · intro slot' name' number' inode listed' current
    by_cases here : slot' = slot
    · rw [here, Function.update_self] at listed'
      contradiction
    rw [Function.update_of_ne here] at listed'
    have apart : number' ≠ number := fun same =>
      here (inv.dir.distinct slot' slot name' name number' number listed' listed (.inr same))
    refine .inr ⟨rfl, ⟨slot', listed'⟩, inode, ?_, rfl, rfl⟩
    cases current with
    | opened held => exact .opened (Option.eq_some_of_filter_eq_some held)
    | stored other =>
        simp only [FsSystem.dropHandles, FsSystem.withState]
        rw [inodes _ (inv.live_lt (.inr ⟨slot', name', listed'⟩)), if_neg apart]
        exact .stored fun index handle held => other index handle (keeps held)

/-- The handle of a file has been changed in what its client does not see. -/
theorem Views.same_file (known : Views layout system entries views)
    (one : OneHandle layout system entries) (inv : FsInv uuid layout origin system entries)
    {index : Nat} {handle : Handle} (held : system.handles index = some handle) {state : FsState}
    {next : Option Handle}
    (numbered : ∀ found, next = some found → found.file.number = handle.file.number)
    (inodes : ∀ {number}, number < layout.inodePageBlockCount → number ≠ handle.file.number →
      inodeAt layout state.disk number = inodeAt layout system.state.disk number)
    (blocks : ∀ lba, InData layout lba → state.disk.content lba = system.state.disk.content lba)
    (opened : ∀ found, next = some found → found.file.inode.SameFile handle.file.inode)
    (stored : next = none →
      (inodeAt layout state.disk handle.file.number).SameFile handle.file.inode) :
    Views layout ((system.withState state).setHandle index next) entries views := by
  refine known.change inv held numbered inodes (fun _ _ => rfl)
    (fun lba inData _ _ => blocks lba inData) fun {inode} current => ?_
  obtain ⟨slot, listed⟩ := one.listed inv held
  have shown := known _ _ _ _ listed (.opened held)
  have same : inode.SameFile handle.file.inode := by
    rcases current.of_own one held rfl numbered with ⟨found, is, rfl⟩ | ⟨is, rfl⟩
    · exact opened found is
    · exact stored is
  exact shown.congr same fun blk lba mapped =>
    blocks lba (inv.current_inData listed (.opened held) mapped)

/-- A write has come as far as it could. -/
theorem Views.grown (known : Views layout system entries views)
    (one : OneHandle layout system entries) (inv : FsInv uuid layout origin system entries)
    {index : Nat} {handle : Handle} (held : system.handles index = some handle) {offset : UInt64}
    {data : List UInt8} {stop : Option Errno} {n : Nat} {next : NebulaFile} {middle : FsState}
    (unwrapped : offset.toNat + data.length < 2 ^ 64)
    (ends : LoopEnds uuid layout system.state handle.file.inode offset data stop n next middle)
    (within : handle.file.inode.MapsWithin next.inode offset.toNat data.length) {state : FsState}
    {last : NebulaFile} (numbered : last.number = handle.file.number)
    (inodes : ∀ {number}, number < layout.inodePageBlockCount → number ≠ handle.file.number →
      inodeAt layout state.disk number = inodeAt layout system.state.disk number)
    (blocks : ∀ lba, InData layout lba → state.disk.content lba = middle.disk.content lba)
    (extents : last.inode.extents = next.inode.extents)
    (size : ∀ view : FileView, handle.file.inode.sizeBytes.toNat = view.size →
      last.inode.sizeBytes.toNat = (view.write offset.toNat data n).size) :
    Views layout ((system.withState state).keepFile index handle last) entries
      (Function.update views handle.name ((views handle.name).write offset.toNat data n)) := by
  have most := ends.most
  have filled := ends.filled (by omega)
  refine known.change inv held ?_ inodes (fun name other => Function.update_of_ne other ..) ?_ ?_
  · rintro found ⟨⟩
    exact numbered
  · intro lba inData taken other
    rw [blocks lba inData, ends.grown.others_kept inData taken other]
  · intro inode current
    obtain ⟨slot, listed⟩ := one.listed inv held
    have shown := known _ _ _ _ listed (.opened held)
    rcases current.of_own one held rfl (by rintro found ⟨⟩; exact numbered) with
      ⟨found, ⟨⟩, rfl⟩ | ⟨none, -⟩
    · rw [Function.update_self]
      have written := shown.write rfl ends.grown filled within extents (size _ shown.size)
      refine written.congr ⟨rfl, rfl⟩ fun blk lba mapped => blocks lba ?_
      rw [NebulaInode.blockOf_congr extents] at mapped
      exact ends.grown.inData lba (ends.grown.mapped.holds_of_blockOf mapped)
    · contradiction

/-- Every effect of a call keeps what the client knows. -/
theorem Views.keep (known : Views layout system entries views)
    (one : OneHandle layout system entries) (inv : FsInv uuid layout origin system entries)
    {call : FsCall} (plain : call.Plain system) {result : FsResult} {after : FsSystem}
    {entries' : Entries} (effect : Effect uuid layout system entries call result after entries') :
    Views layout after entries' (system.view call result views) := by
  have sound := inv.solid.sound
  cases effect with
  | idle idle =>
      intro slot name number inode listed current
      exact FsSystem.view_idle idle (known _ _ _ _ listed current)
  | created made => exact known.created inv plain.1.1 made
  | uncreated left header root =>
      exact known.of_state inv (fun lba data => left.inside.data_kept _ data)
        fun live => left.live_kept root inv.live_lt live
  | opened names => exact known.opened inv plain.1.1 names plain.1.2.2
  | @short index handle offset data stop n next middle error held ends flags dirty less within =>
      have unwrapped := plain.2 rfl
      have result : FsResult.written (if 0 < n then .count n else .error error) = n := by
        split_ifs with some
        · rfl
        · simp only [FsResult.written]
          omega
      simp only [FsSystem.view, held, result]
      refine known.grown one inv held unwrapped ends (within unwrapped) ?_
        (fun inside _ => ends.grown.inodeAt_kept inside) (fun _ _ => rfl) rfl fun view size => ?_
      · rw [NebulaFile.number, ends.grown.rest]
      · rw [FileView.size_write_short less, ends.grown.rest, ← size]
  | @wrote index handle offset data stop next middle now held ends flags some within =>
      have unwrapped := plain.2 rfl
      simp only [FsSystem.view, held, FsResult.written]
      have stored := DirOk.metaWrites_inode sound (inv.handle_lt held)
        (NebulaInode.layout (next.inode.written (offset + UInt64.ofNat data.length) now))
      refine known.grown one inv held unwrapped ends (within unwrapped) ?_
        (fun inside apart => ?_) (fun lba inData => stored.data_kept _ inData)
        (next.inode.written_extents _ _) fun view size => ?_
      · rw [NebulaFile.number, next.inode.written_inodeNum, ends.grown.rest]
      · rw [FsState.disk_withDisk, ends.grown.inodeAt_stored _ _ inside, if_neg apart]
      · have reach : (offset + UInt64.ofNat data.length).toNat = offset.toNat + data.length := by
          rw [UInt64.toNat_add, UInt64.toNat_ofNat']
          omega
        rw [FileView.size_write_full some, NebulaInode.written_size, reach, ends.grown.rest, ← size]
  | @read index handle offset len result time held =>
      refine known.same_file one inv held ?_ (fun _ _ => rfl) (fun _ _ => rfl) ?_ (by rintro ⟨⟩)
      · rintro found ⟨⟩
        rfl
      · rintro found ⟨⟩
        exact ⟨rfl, rfl⟩
  | @closed index handle held clean =>
      have same := one.clean held clean
      exact known.same_file one inv held (by rintro _ ⟨⟩) (fun _ _ => rfl) (fun _ _ => rfl)
        (by rintro _ ⟨⟩) fun _ => ⟨same.1.symm, same.2.symm⟩
  | @stored index handle now held dirty =>
      have stored := DirOk.metaWrites_inode sound (inv.handle_lt held)
        (NebulaInode.layout (NebulaInode.seal { handle.file.inode with mtimeNs := now }))
      have inodes := @inodeAt_store layout system.state.disk handle.file.number
      refine known.same_file one inv held (by rintro _ ⟨⟩) (fun _ apart => ?_)
        (fun lba inData => stored.data_kept _ inData) (by rintro _ ⟨⟩) fun _ => ?_
      · rw [FsState.disk_withDisk, inodes, if_neg apart]
      · rw [FsState.disk_withDisk, inodes, if_pos rfl]
        exact ⟨rfl, rfl⟩
  | deleted listed solid disk pages => exact known.deleted inv plain.1.2 listed disk pages
  | remounted => exact known.of_state inv (fun _ _ => rfl) fun _ => rfl

end Keep

/-- What a read returns is what the client knows. -/
theorem FileView.Shown.reads {view : FileView} {inode : NebulaInode} {disk : Disk}
    (shown : view.Shown inode disk) (offset len : Nat) :
    view.ReadBy offset len (inode.reads disk offset len) := by
  have length : (inode.reads disk offset len).length = min len (view.size - offset) := by
    rw [NebulaInode.reads, NebulaInode.bytesAt, List.length_map, List.length_range, shown.size]
  have byte : ∀ index < (inode.reads disk offset len).length,
      (inode.reads disk offset len)[index]? = some (inode.byteAt disk (offset + index)) := by
    intro index below
    rw [length, ← shown.size] at below
    rw [NebulaInode.reads, NebulaInode.bytesAt, List.getElem?_map, List.getElem?_range below,
      Option.map_some]
  refine ⟨length, ?_, ?_⟩
  · intro index value below known
    obtain ⟨lba, mapped, content⟩ := shown.bytes known
    rw [byte index below, NebulaInode.byteAt, mapped]
    exact congrArg some content
  · intro index below clear
    rw [byte index below, NebulaInode.byteAt, shown.holes clear]

/-- Every read through a handle returns what the client knows of the file. -/
def ReadsBack (system : FsSystem) (views : Name → FileView) : Prop :=
  ∀ (index : Nat) (handle : Handle) (offset : UInt64) (len : Nat) (now : UInt64),
    system.handles index = some handle → handle.file.flags &&& openReadOnly ≠ 0 →
    offset.toNat + len < 2 ^ 64 → ∃ bytes,
      (system.perform (.read index offset len) now).1 = .bytes bytes ∧
        (views handle.name).ReadBy offset.toNat len bytes

/-- In every run with at most one handle on a file and writes that end below 2^64, a read
returns the bytes up to the size, each acknowledged byte as it was last written, and zero
where no write has been. -/
theorem read_after_write {options : FormatOptions} {layout : NebulaLayout} {volume : Volume}
    (fresh : volume.Fresh options layout) (small : layout.capacityBlocks ≤ 2 ^ 32)
    {reached : FsSystem} {views : Name → FileView}
    (run : FsRun FsCall.Plain FsSystem.view (.fresh volume) (fun _ => .empty) reached views) :
    ReadsBack reached views := by
  intro index handle offset len now held readable unwrapped
  have start : Views layout (.fresh volume) (fun _ => none) fun _ => .empty :=
    fun slot name number inode listed => absurd listed (Option.some_ne_none _).symm
  obtain ⟨entries, inv, one, known⟩ := @FsRun.invariant _ options layout volume.disk FsCall.Plain
    FsSystem.view (.fresh volume) reached (fun _ => .empty) views
    (fun _ => none) run fresh.mountable (fun plain => plain.1.sane) (fresh.fsInv small)
    (fun system entries views => OneHandle layout system entries ∧
      Views layout system entries views)
    ⟨fresh.oneHandle small, start⟩
    fun inv known plain effect =>
      ⟨known.1.keep inv plain.1 effect, known.2.keep known.1 inv plain effect⟩
  obtain ⟨slot, listed⟩ := one.listed inv held
  have shown := known _ _ _ _ listed (.opened held)
  obtain ⟨time, ran⟩ :=
    fileRead_spec inv.solid (inv.handle_backs held) readable offset unwrapped now
  refine ⟨_, ?_, shown.reads offset.toNat len⟩
  simp only [FsSystem.perform, held, ran]

/-- A write keeps its handle. -/
theorem FsSystem.perform_write_held {system : FsSystem} {index : Nat} {handle : Handle}
    (held : system.handles index = some handle) (offset : UInt64) (data : List UInt8)
    (now : UInt64) :
    ∃ kept, (system.perform (.write index offset data) now).2.handles index = some kept := by
  simp only [FsSystem.perform, held]
  split
  · exact ⟨_, Function.update_self ..⟩
  · exact ⟨_, Function.update_self ..⟩
  · exact ⟨_, held⟩

theorem read_after_write_plainDisk : ∃ layout mount reached views handle,
    Volume.Fresh plainOptions layout ⟨plainDisk 65536 (by decide), mount⟩ ∧
    FsRun FsCall.Plain FsSystem.view (.fresh ⟨plainDisk 65536 (by decide), mount⟩) (fun _ => .empty)
      reached views ∧
    reached.handles 0 = some handle ∧ ReadsBack reached views := by
  obtain ⟨layout, mount, fresh, total⟩ := plainDisk_fresh
  have run : FsRun FsCall.Plain FsSystem.view (.fresh ⟨plainDisk 65536 (by decide), mount⟩)
      (fun _ => .empty) _ _ :=
    (FsRun.refl.call (.create 0 [97] 0) 0
      ⟨⟨rfl, List.forall_mem_singleton.mpr (by decide)⟩, fun call => nomatch call⟩).call
      (.write 0 5000 [1, 2, 3]) 1 ⟨trivial, by rintro _ _ _ ⟨⟩; decide⟩
  obtain ⟨file, -, held⟩ := fresh.create_first (by omega)
    (show ∀ byte ∈ [97], byte ≠ 0 from List.forall_mem_singleton.mpr (by decide))
    (by decide) (by decide) (by decide) 0 0 0
  obtain ⟨kept, held'⟩ := FsSystem.perform_write_held held 5000 [1, 2, 3] 1
  exact ⟨layout, mount, _, _, kept, fresh, run, held', read_after_write fresh (by omega) run⟩

end MiniFs
