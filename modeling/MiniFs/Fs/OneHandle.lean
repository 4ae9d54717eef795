import MiniFs.Fs.Invariant

/-!
# One handle on a file

With at most one handle on a file, and none when the file is deleted, a handle that is not dirty has
the inode as it is stored, and every block of the data region that is in use is held by a file.
-/

namespace MiniFs

open Fs

/-- A client that keeps at most one handle on a file, and closes it before it deletes the file or
mounts the device again. -/
def FsCall.OneHandle (system : FsSystem) : FsCall → Prop
  | .create index name _ => system.handles index = none ∧ ∀ byte ∈ name, byte ≠ 0
  | .open index name _ => system.handles index = none ∧ name ≠ [47] ∧
      ∀ other handle, system.handles other = some handle → handle.name ≠ name
  | .delete name => name ≠ [47] ∧
      ∀ other handle, system.handles other = some handle → handle.name ≠ name
  | .remount _ => ∀ index, system.handles index = none
  | _ => True

theorem FsCall.OneHandle.sane {system : FsSystem} {call : FsCall} (one : call.OneHandle system) :
    call.Sane system := by
  cases call with
  | create index name mode => exact one.2
  | delete name => exact one.1
  | remount heap => exact one
  | «open» | write | read | close | lookup | readdir => trivial

/-- The inodes have the same extents and the same size. -/
def NebulaInode.SameFile (inode other : NebulaInode) : Prop :=
  inode.extents = other.extents ∧ inode.sizeBytes = other.sizeBytes

/-- Handles and stored inodes with at most one handle on a file. -/
structure OneHandle (layout : NebulaLayout) (system : FsSystem) (entries : Entries) : Prop where
  alone : ∀ {index other handle found}, system.handles index = some handle →
    system.handles other = some found → handle.file.number = found.file.number → index = other
  notRoot : ∀ {index handle}, system.handles index = some handle → handle.file.number ≠ 0
  behind : ∀ {index handle}, system.handles index = some handle → ∀ lba,
    (inodeAt layout system.state.disk handle.file.number).Holds lba → handle.file.inode.Holds lba
  clean : ∀ {index handle}, system.handles index = some handle → handle.file.dirty = false →
    handle.file.inode.SameFile (inodeAt layout system.state.disk handle.file.number)
  used : ∀ lba, InData layout lba → system.state.taken lba = true →
    ∃ number inode, system.Holder layout entries number inode ∧ inode.Holds lba
  rootEmpty : ∀ index, (inodeAt layout system.state.disk 0).extents index = .zero

section Keep

variable {uuid : Bytes 16} {layout : NebulaLayout} {origin : Disk} {system : FsSystem}
  {entries : Entries}

theorem Entries.live_zero (entries : Entries) : entries.Live 0 := .inl rfl

/-- Two handles have names for their inodes. -/
theorem FsInv.handle_name_iff (inv : FsInv uuid layout origin system entries) {index : Nat}
    {handle : Handle} (held : system.handles index = some handle) {name : Name} {number : Nat}
    (names : entries.Names name number) : handle.name = name ↔ handle.file.number = number :=
  inv.dir.names_unique (inv.named held).1 names

namespace OneHandle

/-- A handle is on a listed file. -/
theorem listed (one : OneHandle layout system entries)
    (inv : FsInv uuid layout origin system entries) {index : Nat} {handle : Handle}
    (held : system.handles index = some handle) :
    ∃ slot, entries slot = some (handle.name, handle.file.number) := by
  rcases (inv.named held).1 with ⟨-, root⟩ | listed
  · exact absurd root (one.notRoot held)
  · exact listed

/-- A handle is put into a free variable, on a file that has none. -/
theorem open_handle (one : OneHandle layout system entries) {index : Nat}
    (empty : system.handles index = none) {added : Handle}
    (fresh : ∀ {other handle}, system.handles other = some handle →
      handle.file.number ≠ added.file.number) (positive : added.file.number ≠ 0)
    (stored : added.file.inode = inodeAt layout system.state.disk added.file.number) :
    OneHandle layout (system.setHandle index (some added)) entries := by
  refine ⟨?_, ?_, ?_, ?_, ?_, one.rootEmpty⟩
  · intro first second handle found held held' same
    rcases FsSystem.handles_setHandle held with ⟨rfl, is⟩ | ⟨-, older⟩ <;>
      rcases FsSystem.handles_setHandle held' with ⟨rfl, is'⟩ | ⟨-, older'⟩
    · rfl
    · rw [← Option.some.inj is] at same
      exact absurd same.symm (fresh older')
    · rw [← Option.some.inj is'] at same
      exact absurd same (fresh older)
    · exact one.alone older older' same
  · intro other handle held
    rcases FsSystem.handles_setHandle held with ⟨-, is⟩ | ⟨-, held⟩
    · rwa [← Option.some.inj is]
    · exact one.notRoot held
  · intro other handle held lba holds
    rcases FsSystem.handles_setHandle held with ⟨-, is⟩ | ⟨-, held⟩
    · rw [← Option.some.inj is] at holds ⊢
      rwa [stored]
    · exact one.behind held lba holds
  · intro other handle held clean
    rcases FsSystem.handles_setHandle held with ⟨-, is⟩ | ⟨-, held⟩
    · rw [← Option.some.inj is]
      exact ⟨congrArg _ stored, congrArg _ stored⟩
    · exact one.clean held clean
  · intro lba data taken
    obtain ⟨number, inode, live | @⟨other, handle, held⟩, holds⟩ := one.used lba data taken
    · exact ⟨_, _, .stored live, holds⟩
    · refine ⟨_, _, @FsSystem.Holder.opened _ _ _ other handle ?_, holds⟩
      simp only [FsSystem.setHandle]
      rwa [Function.update_of_ne]
      rintro rfl
      rw [empty] at held
      contradiction

/-- A device on which the files in use are stored as before, with the same bitmap. -/
theorem of_state (one : OneHandle layout system entries)
    (inv : FsInv uuid layout origin system entries) {after : FsState} {entries' : Entries}
    (stored : ∀ {number}, entries.Live number →
      inodeAt layout after.disk number = inodeAt layout system.state.disk number)
    (live : ∀ {number}, entries.Live number → entries'.Live number)
    (bits : ∀ lba < layout.capacityBlocks, after.taken lba = system.state.taken lba) :
    OneHandle layout (system.withState after) entries' := by
  refine ⟨one.alone, one.notRoot, ?_, ?_, ?_, ?_⟩
  · intro index handle held lba holds
    simp only [FsSystem.withState, stored (inv.named held).1.live] at holds
    exact one.behind held lba holds
  · intro index handle held clean
    simp only [FsSystem.withState, stored (inv.named held).1.live]
    exact one.clean held clean
  · intro lba data taken
    have taken : after.taken lba = true := taken
    rw [bits lba (data.lt_capacity inv.solid.sound)] at taken
    obtain ⟨number, inode, alive | held, holds⟩ := one.used lba data taken
    · refine ⟨_, _, .stored (live alive), ?_⟩
      simp only [FsSystem.withState, stored alive]
      exact holds
    · exact ⟨_, _, .opened held, holds⟩
  · simp only [FsSystem.withState, stored entries.live_zero]
    exact one.rootEmpty

/-- What becomes of a handle and of the inode it is stored in. -/
structure Changed (layout : NebulaLayout) (system : FsSystem) (handle : Handle) (after : FsState)
    (next : Option Handle) : Prop where
  others : ∀ {number}, number < layout.inodePageBlockCount → number ≠ handle.file.number →
    inodeAt layout after.disk number = inodeAt layout system.state.disk number
  number : ∀ found, next = some found → found.file.number = handle.file.number
  behind : ∀ found, next = some found → ∀ lba,
    (inodeAt layout after.disk handle.file.number).Holds lba → found.file.inode.Holds lba
  clean : ∀ found, next = some found → found.file.dirty = false →
    found.file.inode.SameFile (inodeAt layout after.disk handle.file.number)
  used : ∀ lba, after.taken lba = true → system.state.taken lba = false ∨
    handle.file.inode.Holds lba → (∃ found, next = some found ∧ found.file.inode.Holds lba) ∨
      (inodeAt layout after.disk handle.file.number).Holds lba

theorem change (one : OneHandle layout system entries)
    (inv : FsInv uuid layout origin system entries)
    {index : Nat} {handle : Handle} (held : system.handles index = some handle) {after : FsState}
    {next : Option Handle} (changed : Changed layout system handle after next) :
    OneHandle layout ((system.withState after).setHandle index next) entries := by
  have live := (inv.named held).1.live
  have other : ∀ {index' found}, system.handles index' = some found → index' ≠ index →
      inodeAt layout after.disk found.file.number =
        inodeAt layout system.state.disk found.file.number := by
    intro index' found held' apart
    exact changed.others (inv.handle_lt held') fun same => apart (one.alone held' held same)
  refine ⟨?_, ?_, ?_, ?_, ?_, ?_⟩
  · intro first second found found' held₁ held₂ same
    rcases FsSystem.handles_setHandle held₁ with ⟨rfl, is⟩ | ⟨apart, older⟩ <;>
      rcases FsSystem.handles_setHandle held₂ with ⟨rfl, is'⟩ | ⟨apart', older'⟩
    · rfl
    · rw [changed.number _ is] at same
      exact absurd (one.alone older' held same.symm) apart'
    · rw [changed.number _ is'] at same
      exact absurd (one.alone older held same) apart
    · exact one.alone older older' same
  · intro index' found held'
    rcases FsSystem.handles_setHandle held' with ⟨-, is⟩ | ⟨-, older⟩
    · rw [changed.number _ is]
      exact one.notRoot held
    · exact one.notRoot older
  · intro index' found held' lba holds
    simp only [FsSystem.setHandle, FsSystem.withState] at holds
    rcases FsSystem.handles_setHandle held' with ⟨-, is⟩ | ⟨apart, older⟩
    · rw [changed.number _ is] at holds
      exact changed.behind _ is lba holds
    · rw [other older apart] at holds
      exact one.behind older lba holds
  · intro index' found held' clean
    simp only [FsSystem.setHandle, FsSystem.withState]
    rcases FsSystem.handles_setHandle held' with ⟨-, is⟩ | ⟨apart, older⟩
    · rw [changed.number _ is]
      exact changed.clean _ is clean
    · rw [other older apart]
      exact one.clean older clean
  · intro lba data taken
    have mine : system.state.taken lba = false ∨ handle.file.inode.Holds lba →
        ∃ number inode, ((system.withState after).setHandle index next).Holder layout entries number
          inode ∧ inode.Holds lba := by
      intro either
      rcases changed.used lba taken either with ⟨found, is, holds⟩ | holds
      · refine ⟨_, _, @FsSystem.Holder.opened _ _ _ index found ?_, holds⟩
        simp only [FsSystem.setHandle, is, Function.update_self]
      · exact ⟨_, _, .stored live, holds⟩
    cases before : system.state.taken lba with
    | false => exact mine (.inl before)
    | true =>
        obtain ⟨number, inode, alive | @⟨index', found, held'⟩, holds⟩ := one.used lba data before
        · by_cases here : number = handle.file.number
          · rw [here] at holds
            exact mine (.inr (one.behind held lba holds))
          · refine ⟨number, _, .stored alive, ?_⟩
            simp only [FsSystem.setHandle, FsSystem.withState]
            rwa [changed.others (inv.live_lt alive) here]
        · by_cases here : index' = index
          · rw [here, held, Option.some.injEq] at held'
            rw [← held'] at holds
            exact mine (.inr holds)
          · refine ⟨_, _, @FsSystem.Holder.opened _ _ _ index' found ?_, holds⟩
            simp only [FsSystem.setHandle, FsSystem.withState]
            rwa [Function.update_of_ne here]
  · simp only [FsSystem.setHandle, FsSystem.withState]
    rw [changed.others (inv.live_lt entries.live_zero) (one.notRoot held).symm]
    exact one.rootEmpty

theorem deleted (one : OneHandle layout system entries)
    (inv : FsInv uuid layout origin system entries)
    {name : Name} {slot number : Nat} {after : FsState} {writes : List (Nat × Block)}
    (closed : ∀ index handle, system.handles index = some handle → handle.name ≠ name)
    (listed : entries slot = some (name, number))
    (disk : after.disk = ((system.state.disk.push [slotWrite layout system.state.disk slot .zero,
      headerWrite layout system.state.disk (-1)]).push writes).push
        [(layout.inodePageLba + number, zeroBlock)])
    (pages : ∀ write ∈ writes, InBitmap layout write.1)
    (bits : ∀ lba, after.taken lba = true ↔ system.state.taken lba = true ∧
      ¬ (inodeAt layout system.state.disk number).Holds lba) :
    OneHandle layout ((system.withState after).dropHandles name)
      (Function.update entries slot none) := by
  have names : entries.Names name number := .inr ⟨slot, listed⟩
  obtain ⟨-, inodes⟩ := inv.dir.unlist inv.solid.sound listed pages
  rw [← disk] at inodes
  have left : ∀ {index handle}, ((system.withState after).dropHandles name).handles index =
      some handle → system.handles index = some handle ∧
        inodeAt layout after.disk handle.file.number =
        inodeAt layout system.state.disk handle.file.number := by
    intro index handle held
    have older := Option.eq_some_of_filter_eq_some held
    have apart : handle.file.number ≠ number := fun same =>
      closed index handle older ((inv.handle_name_iff older names).mpr same)
    exact ⟨older, by rw [inodes _ (inv.handle_lt older), if_neg apart]⟩
  refine ⟨?_, ?_, ?_, ?_, ?_, ?_⟩
  · exact fun held held' same => one.alone (left held).1 (left held').1 same
  · exact fun held => one.notRoot (left held).1
  · intro index handle held lba holds
    obtain ⟨older, same⟩ := left held
    simp only [FsSystem.dropHandles, FsSystem.withState, same] at holds
    exact one.behind older lba holds
  · intro index handle held clean
    obtain ⟨older, same⟩ := left held
    simp only [FsSystem.dropHandles, FsSystem.withState, same]
    exact one.clean older clean
  · intro lba data taken
    obtain ⟨before, free⟩ := (bits lba).mp taken
    obtain ⟨other, inode, live | @⟨index, handle, held⟩, holds⟩ := one.used lba data before
    · have apart : other ≠ number := by
        rintro rfl
        exact free holds
      refine ⟨other, _, .stored ?_, ?_⟩
      · rcases live with root | ⟨slot', name', holds'⟩
        · exact .inl root
        · refine .inr ⟨slot', name', ?_⟩
          rwa [Function.update_of_ne]
          rintro rfl
          rw [listed, Option.some.injEq, Prod.mk.injEq] at holds'
          exact apart holds'.2.symm
      · simp only [FsSystem.dropHandles, FsSystem.withState]
        rwa [inodes _ (inv.live_lt live), if_neg apart]
    · refine ⟨_, _, @FsSystem.Holder.opened _ _ _ index handle ?_, holds⟩
      simp only [FsSystem.dropHandles, FsSystem.withState, held]
      exact Option.filter_eq_some_iff.mpr ⟨rfl, decide_eq_true (closed index handle held)⟩
  · have positive := (inv.dir.named slot name number listed).2.2.1
    simp only [FsSystem.dropHandles, FsSystem.withState]
    rw [inodes _ (inv.live_lt entries.live_zero), if_neg positive.ne]
    exact one.rootEmpty

/-- The stored inode is as it was, and the handle has grown. -/
theorem changed_short (one : OneHandle layout system entries)
    (inv : FsInv uuid layout origin system entries) {index : Nat} {handle : Handle}
    (held : system.handles index = some handle) {next : NebulaFile} {middle : FsState}
    (grown : Grown uuid layout system.state handle.file.inode middle next.inode)
    (dirty : next = handle.file ∨ next.dirty = true) :
    Changed layout system handle middle (some { handle with file := next }) := by
  have kept := grown.inodeAt_kept (inv.handle_lt held)
  refine ⟨fun inside _ => grown.inodeAt_kept inside, ?_, ?_, ?_, ?_⟩
  · rintro found ⟨⟩
    simp only [NebulaFile.number]
    rw [grown.rest]
  · rintro found ⟨⟩ lba holds
    rw [kept] at holds
    exact grown.keeps lba (one.behind held lba holds)
  · rintro found ⟨⟩ clean
    rcases dirty with same | dirty
    · simp only [same, kept] at clean ⊢
      exact one.clean held clean
    · rw [dirty] at clean
      contradiction
  · rintro lba taken (free | holds)
    · rcases (grown.taken lba).mp taken with used | holds
      · rw [used] at free
        contradiction
      · exact .inl ⟨_, rfl, holds⟩
    · exact .inl ⟨_, rfl, grown.keeps lba holds⟩

/-- The handle has grown and is stored. -/
theorem changed_wrote (inv : FsInv uuid layout origin system entries) {index : Nat}
    {handle : Handle} (held : system.handles index = some handle) {last : NebulaFile}
    {next : NebulaInode} {middle : FsState}
    (grown : Grown uuid layout system.state handle.file.inode middle next)
    (number : last.number = handle.file.number) (extents : last.inode.extents = next.extents) :
    Changed layout system handle (middle.withDisk (middle.disk.push
      [inodeWrite layout handle.file.number last.inode])) (some { handle with file := last }) := by
  have inodes : ∀ {number}, number < layout.inodePageBlockCount →
      inodeAt layout (middle.disk.push [inodeWrite layout handle.file.number last.inode]) number =
        if number = handle.file.number then last.inode
          else inodeAt layout system.state.disk number :=
    fun inside => grown.inodeAt_stored _ _ inside
  have mine := inodes (inv.handle_lt held)
  rw [if_pos rfl] at mine
  refine ⟨fun inside apart => by rw [FsState.disk_withDisk, inodes inside, if_neg apart], ?_, ?_,
    ?_, ?_⟩
  · rintro found ⟨⟩
    exact number
  · rintro found ⟨⟩ lba holds
    rwa [FsState.disk_withDisk, mine] at holds
  · rintro found ⟨⟩ -
    rw [FsState.disk_withDisk, mine]
    exact ⟨rfl, rfl⟩
  · rintro lba taken (free | holds)
    · rcases (grown.taken lba).mp taken with used | holds
      · rw [used] at free
        contradiction
      · exact .inl ⟨_, rfl, (NebulaInode.holds_congr extents lba).mpr holds⟩
    · exact .inl ⟨_, rfl, (NebulaInode.holds_congr extents lba).mpr (grown.keeps lba holds)⟩

theorem changed_read (one : OneHandle layout system entries) {index : Nat} {handle : Handle}
    (held : system.handles index = some handle) (time : UInt64) :
    Changed layout system handle system.state (some { handle with file :=
      { handle.file with inode := { handle.file.inode with atimeNs := time } } }) := by
  refine ⟨fun _ _ => rfl, ?_, ?_, ?_, ?_⟩
  · rintro found ⟨⟩
    rfl
  · rintro found ⟨⟩ lba holds
    exact one.behind held lba holds
  · rintro found ⟨⟩ clean
    obtain ⟨extents, size⟩ := one.clean held clean
    exact ⟨extents, size⟩
  · rintro lba taken (free | holds)
    · rw [taken] at free
      contradiction
    · exact .inl ⟨_, rfl, holds⟩

theorem changed_closed (one : OneHandle layout system entries) {index : Nat} {handle : Handle}
    (held : system.handles index = some handle) (clean : handle.file.dirty = false) :
    Changed layout system handle system.state none := by
  refine ⟨fun _ _ => rfl, (fun found is => nomatch is), (fun found is => nomatch is),
    (fun found is => nomatch is), ?_⟩
  rintro lba taken (free | holds)
  · rw [taken] at free
    contradiction
  · exact .inr ((NebulaInode.holds_congr (one.clean held clean).1 lba).mp holds)

theorem changed_stored (handle : Handle) (now : UInt64) :
    Changed layout system handle (system.state.withDisk (system.state.disk.push [inodeWrite layout
      handle.file.number (NebulaInode.seal { handle.file.inode with mtimeNs := now })])) none := by
  have stored := @inodeAt_store layout system.state.disk handle.file.number
  refine ⟨fun _ apart => by rw [FsState.disk_withDisk, stored, if_neg apart],
    (fun found is => nomatch is), (fun found is => nomatch is), (fun found is => nomatch is), ?_⟩
  rintro lba taken (free | holds)
  · have taken : system.state.taken lba = true := taken
    rw [taken] at free
    contradiction
  · right
    rw [FsState.disk_withDisk, stored, if_pos rfl]
    exact holds

/-- Every effect of a call of such a client keeps the invariant. -/
theorem keep (one : OneHandle layout system entries) (inv : FsInv uuid layout origin system entries)
    {call : FsCall} (allowed : call.OneHandle system) {result : FsResult} {after : FsSystem}
    {entries' : Entries} (effect : Effect uuid layout system entries call result after entries') :
    OneHandle layout after entries' := by
  cases effect with
  | idle => exact one
  | @created index name mode now slot number writes made magic =>
      have older : ∀ {number'}, entries.Live number' → number' ≠ number := by
        rintro number' (root | listed) rfl
        · exact absurd root made.positive.ne'
        · exact made.unlisted listed
      have numbered : (createdFile number mode now).number = number :=
        toNat_ofNat_inode inv.solid.sound made.bounded
      have kept := @of_state _ _ _ _ _ one inv
        (system.state.withDisk (system.state.disk.push writes))
        (Function.update entries slot (some (name, number)))
        (fun live => by
          rw [FsState.disk_withDisk, made.inodes _ (inv.live_lt live), if_neg (older live)])
        (by
          rintro number' (root | ⟨slot', name', holds⟩)
          · exact .inl root
          · refine .inr ⟨slot', name', ?_⟩
            rwa [Function.update_of_ne]
            rintro rfl
            rw [made.vacant] at holds
            contradiction) (fun _ _ => rfl)
      refine kept.open_handle allowed.1 (fun held => ?_) (by rw [numbered]; exact made.positive.ne')
        ?_
      · rw [numbered]
        exact older (inv.named held).1.live
      · simp only [FsSystem.withState, FsState.disk_withDisk]
        rw [numbered, made.inodes number made.bounded, if_pos rfl]
        rfl
  | uncreated left header root =>
      exact one.of_state inv (fun live => left.live_kept root inv.live_lt live) (fun live => live)
        fun _ _ => rfl
  | @opened index name flags number names =>
      obtain ⟨empty, other, fresh⟩ := allowed
      have numbered := inv.live_number names.live
      refine one.open_handle empty ?_ ?_ ?_
      · intro index' handle held same
        simp only [NebulaFile.number, numbered] at same
        exact fresh index' handle held ((inv.handle_name_iff held names).mpr same)
      · simp only [NebulaFile.number, numbered]
        rintro rfl
        exact other ((inv.dir.names_unique names (.inl ⟨rfl, rfl⟩)).mpr rfl)
      · simp only [NebulaFile.number, numbered]
  | short error held ends flags dirty =>
      exact one.change inv held (one.changed_short inv held ends.grown (dirty.imp_left And.right))
  | @wrote index handle offset data stop next middle now held ends =>
      have number : NebulaFile.number ⟨next.inode.written (offset + UInt64.ofNat data.length) now,
          next.flags, false⟩ = handle.file.number := by
        rw [NebulaFile.number, next.inode.written_inodeNum, ends.grown.rest]
      have changed := @changed_wrote _ _ _ _ _ inv index handle held _ _ _ ends.grown number
        (next.inode.written_extents _ _)
      exact one.change inv held changed
  | read time held => exact one.change inv held (one.changed_read held time)
  | closed held clean => exact one.change inv held (one.changed_closed held clean)
  | @stored index handle now held => exact one.change inv held (changed_stored handle now)
  | deleted listed solid disk pages bits =>
      exact one.deleted inv allowed.2 listed disk pages bits
  | remounted closed exact bits =>
      exact one.of_state inv (fun _ => rfl) (fun live => live) bits

end OneHandle

end Keep

theorem Volume.Fresh.oneHandle {options : FormatOptions} {layout : NebulaLayout} {volume : Volume}
    (fresh : volume.Fresh options layout) (small : layout.capacityBlocks ≤ 2 ^ 32) :
    OneHandle layout (.fresh volume) fun _ => none := by
  obtain ⟨sound, -, -, formatted⟩ := fresh.spec
  have many := sound.inodeCount_ge
  refine ⟨(fun held => nomatch held), (fun held => nomatch held), (fun held => nomatch held),
    (fun held => nomatch held), ?_, ?_⟩
  · intro lba data taken
    have free := fresh.bits (sound.pages_fit small) (data.lt_capacity sound)
    rw [lbaIsMetadata_data data.1 data.2] at free
    have taken : bitGet volume.mount.bitmap.l0Bits lba = true := taken
    rw [free] at taken
    contradiction
  · rw [formatted.inodeAt_eq (show 0 < layout.inodePageBlockCount by omega), if_pos rfl]
    exact fun _ => rfl

/-- What every run of such a client keeps. -/
theorem FsRun.oneHandle {γ : Type} {track : FsSystem → FsCall → FsResult → γ → γ} {first ghost : γ}
    {options : FormatOptions} {layout : NebulaLayout} {volume : Volume} {reached : FsSystem}
    (run : FsRun FsCall.OneHandle track (.fresh volume) first reached ghost)
    (fresh : volume.Fresh options layout) (small : layout.capacityBlocks ≤ 2 ^ 32) :
    ∃ entries, FsInv options.uuid layout volume.disk reached entries ∧
      OneHandle layout reached entries :=
  @FsRun.invariant γ options layout volume.disk FsCall.OneHandle track (.fresh volume) reached first
    ghost (fun _ => none) run fresh.mountable FsCall.OneHandle.sane (fresh.fsInv small)
    (fun system entries _ => OneHandle layout system entries) (fresh.oneHandle small)
    fun inv one allowed effect => one.keep inv allowed effect

end MiniFs
