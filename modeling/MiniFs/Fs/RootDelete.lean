import MiniFs.Fs.Invariant

/-!
# Deleting the root

Nothing keeps `nebula_fs_delete` from "/".  The call clears the entry of the root and frees the
blocks of the root inode before `nebula_inode_free` refuses inode 0: it fails, and yet the root is
not found any more, and the blocks that its inode still maps are free.
-/

namespace MiniFs

open Fs

/-- What a delete of "/" does. -/
structure RootDeleted (layout : NebulaLayout) (before : FsSystem) (outcome : FsResult × FsSystem) :
    Prop where
  refused : outcome.1 = .error .EINVAL
  /-- The root is not found any more. -/
  gone : (nebulaFsLookup [47]).run outcome.2.state = (.error .ENOENT, outcome.2.state)
  /-- All other entries stay. -/
  slots : ∀ slot, 0 < slot → slot < slotCount layout →
    slotAt layout outcome.2.state.disk slot = slotAt layout before.state.disk slot
  /-- All inodes stay, that of the root too. -/
  inodes : ∀ number < layout.inodePageBlockCount,
    inodeAt layout outcome.2.state.disk number = inodeAt layout before.state.disk number
  /-- The blocks of the root inode are free. -/
  freed : ∀ lba, outcome.2.state.taken lba = true ↔
    before.state.taken lba = true ∧ ¬ (inodeAt layout before.state.disk 0).Holds lba
  handles : outcome.2.handles = before.handles

section Root

variable {uuid : Bytes 16} {layout : NebulaLayout} {origin disk : Disk} {system : FsSystem}
  {state : FsState} {entries : Entries}

/-- No other slot holds the name of the root. -/
theorem DirOk.root_slot (dir : DirOk layout disk entries) {slot : Nat} (positive : 0 < slot)
    (below : slot < slotCount layout) : ¬ HoldsName (slotAt layout disk) [47] slot := by
  rintro ⟨used, matching⟩
  cases holds : entries slot with
  | none =>
      rw [dir.unused slot positive below holds] at used
      contradiction
  | some entry =>
      obtain ⟨stored, number⟩ := entry
      obtain ⟨short, other, -⟩ := dir.named slot stored number holds
      rw [dir.stored slot stored number holds, DirEntry.matches_for short (by decide)] at matching
      exact other matching

/-- Clearing the entry of the root without faults. -/
theorem DirOk.run_dirRemove_root (dir : DirOk layout state.disk entries)
    (ready : state.Ready uuid layout) (some : 0 < slotCount layout) :
    (nebulaDirRemove [47]).run state = (.ok (), state.withDisk (state.disk.push
      [slotWrite layout state.disk 0 .zero, headerWrite layout state.disk (-1)])) := by
  have first : FirstNamed (slotAt layout state.disk) [47] 0 :=
    ⟨dir.root_holdsName, fun earlier below => absurd below (Nat.not_lt_zero _)⟩
  obtain ⟨after, idles, ⟨absent, -⟩ | ⟨bad, -⟩ | ⟨found, -, first', ran | ⟨bad, -⟩⟩⟩ :=
    ready.placed.dirRemove_spec (show [47].length < dirNameMax by decide)
  · exact absurd dir.root_holdsName (absent 0 some)
  · exact absurd bad (FsState.not_faulty ready.faultFree)
  · rw [ran, idles.eq ready.faultFree, first'.unique first]
  · obtain ⟨fails, member, -⟩ := bad
    simp [ready.faultFree] at member

/-- The inode of the root cannot be freed: the blocks go, the inode stays. -/
theorem fileDelete_root {file : NebulaFile} (solid : state.Solid uuid layout)
    (backs : state.Backs layout file.inode) (root : file.inode.inodeNum = 0) :
    ∃ after writes, (nebulaFileDelete file).run state = (.error .EINVAL, after) ∧
      after.Solid uuid layout ∧ after.disk = state.disk.push writes ∧
      (∀ write ∈ writes, InBitmap layout write.1) ∧
      ∀ lba, after.taken lba = true ↔ state.taken lba = true ∧ ¬ file.inode.Holds lba := by
  have everywhere : ∀ lba, file.inode.HoldsIn (List.finRange 248) lba ↔ file.inode.Holds lba := by
    intro lba
    simp [NebulaInode.HoldsIn, NebulaInode.Holds]
  obtain ⟨after, writes, ran, solid', disk, pages, left⟩ := fileDeleteLoop_spec backs.mapped
    backs.inData solid (List.nodup_finRange 248)
    (fun lba held => backs.taken lba ((everywhere lba).mp held)) none
  have refused : (nebulaInodeFree file.inode.inodeNum).run after = (.error .EINVAL, after) := by
    simp only [nebulaInodeFree, run_mount_bind, if_pos root, run_throw]
  refine ⟨after, writes, ?_, solid', disk, pages, fun lba => by rw [left, everywhere]⟩
  simp only [nebulaFileDelete, run_bind_ok ran, run_attempt_bind, refused]
  rfl

theorem FsInv.delete_root (inv : FsInv uuid layout origin system entries) (now : UInt64) :
    RootDeleted layout system (system.perform (.delete [47]) now) := by
  have sound := inv.solid.sound
  have ready := inv.solid.ready
  have live : entries.Live 0 := .inl rfl
  have inside := inv.live_lt live
  have many := sound.inodeCount_ge
  have count := sound.dirCount_eq
  have some : 0 < slotCount layout := by
    rw [slotCount]
    omega
  have apart :=
    (@DirOk.metaWrites_entry layout sound system.state.disk 0 some .zero (-1)).apart sound
  have backs := inv.owners.backs (.stored live)
  have kept : ∀ {number}, number < layout.inodePageBlockCount → inodeAt layout
      (system.state.disk.push [slotWrite layout system.state.disk 0 .zero,
        headerWrite layout system.state.disk (-1)]) number =
        inodeAt layout system.state.disk number :=
    fun below => inodeAt_entryWrites sound below 0 .zero (-1)
  have ready' : (system.state.withDisk (system.state.disk.push
      [slotWrite layout system.state.disk 0 .zero,
        headerWrite layout system.state.disk (-1)])).Ready uuid layout := ready.withDisk rfl
  obtain ⟨after, writes, ran, solid, disk, pages, bits⟩ := @fileDelete_root uuid layout
    (system.state.withDisk (system.state.disk.push [slotWrite layout system.state.disk 0 .zero,
      headerWrite layout system.state.disk (-1)]))
    ⟨inodeAt layout system.state.disk 0, openReadWrite, false⟩ (inv.solid.push apart)
    ⟨backs.guarded, backs.mapped, backs.taken, backs.inData⟩ inv.dir.rootNumber
  have opened : (nebulaFileOpen 0 openReadWrite).run (system.state.withDisk (system.state.disk.push
      [slotWrite layout system.state.disk 0 .zero, headerWrite layout system.state.disk (-1)])) =
        (.ok ⟨inodeAt layout system.state.disk 0, openReadWrite, false⟩,
          system.state.withDisk (system.state.disk.push
            [slotWrite layout system.state.disk 0 .zero,
              headerWrite layout system.state.disk (-1)])) := by
    obtain ⟨final, idles, read | ⟨bad, -⟩⟩ := ready'.placed.inodeRead_spec
      (show (0 : UInt64).toNat < _ from inside)
      (by rw [UInt64.toNat_zero, FsState.disk_withDisk, kept inside]; exact inv.dir.valid 0 inside)
    · rw [UInt64.toNat_zero, FsState.disk_withDisk, kept inside, idles.eq ready'.faultFree] at read
      rw [nebulaFileOpen, if_neg (by decide), run_bind_ok read, if_neg (inv.live_used live),
        run_pure]
    · exact absurd bad (FsState.not_faulty ready'.faultFree)
  have performed :
    system.perform (.delete [47]) now = (.error .EINVAL, system.withState after) := by
    have deleted : (nebulaFsDelete [47]).run system.state = (.error .EINVAL, after) := by
      rw [nebulaFsDelete, run_bind_ok (inv.dir.lookup_root ready),
        run_bind_ok (inv.dir.run_dirRemove_root ready some), run_bind_ok opened, ran]
    simp only [FsSystem.perform, deleted]
  have stream := sound.streamMap_eq
  have inodeEq := sound.inode_eq
  have dirEq := sound.dir_eq
  have slots : ∀ slot, slotAt layout after.disk slot =
      if slot = 0 then .zero else slotAt layout system.state.disk slot := by
    intro slot
    rw [disk, slotAt_push_of_ne, FsState.disk_withDisk, slotAt_entryWrites]
    intro write member here
    have page := pages write member
    rw [InBitmap] at page
    omega
  rw [performed]
  refine ⟨rfl, ?_, fun slot positive _ => ?_, fun number below => ?_, fun lba => ?_, rfl⟩
  · obtain ⟨final, idles, ⟨slot, below, first, -⟩ | ⟨-, lost⟩ | ⟨bad, -⟩⟩ :=
      solid.ready.placed.dirLookup_spec (show [47].length < dirNameMax by decide)
    · have holds := first.holds
      rw [HoldsName, slots] at holds
      split_ifs at holds with zero
      · exact absurd holds.1 (by decide)
      · exact absurd holds (inv.dir.root_slot (Nat.pos_of_ne_zero zero) below)
    · show (nebulaDirLookup [47]).run after = _
      rw [lost, idles.eq solid.ready.faultFree]
      rfl
    · exact absurd bad (FsState.not_faulty solid.ready.faultFree)
  · exact (slots slot).trans (if_neg positive.ne')
  · show inodeAt layout after.disk number = _
    rw [disk, inodeAt_push_of_ne, FsState.disk_withDisk, kept below]
    intro write member here
    have page := pages write member
    rw [InBitmap] at page
    omega
  · exact bits lba

end Root

/-- In every state that calls reach, with any number of handles, a delete of "/" fails after it has
taken the root out of the directory. -/
theorem root_delete_fails_late {options : FormatOptions} {layout : NebulaLayout} {volume : Volume}
    (fresh : volume.Fresh options layout) (small : layout.capacityBlocks ≤ 2 ^ 32)
    {reached : FsSystem} (run : FsReach FsCall.Sane (.fresh volume) reached) (now : UInt64) :
    RootDeleted layout reached (reached.perform (.delete [47]) now) := by
  obtain ⟨entries, inv⟩ := fresh.reaches_fsInv small run
  exact inv.delete_root now

theorem root_delete_fails_late_plainDisk : ∃ layout mount reached,
    Volume.Fresh plainOptions layout ⟨plainDisk 65536 (by decide), mount⟩ ∧
    reached = ((FsSystem.fresh ⟨plainDisk 65536 (by decide), mount⟩).perform
      (.create 0 [97] 0) 0).2 ∧
    RootDeleted layout reached (reached.perform (.delete [47]) 1) := by
  obtain ⟨layout, mount, fresh, total⟩ := plainDisk_fresh
  have run : FsReach FsCall.Sane (.fresh ⟨plainDisk 65536 (by decide), mount⟩) _ :=
    FsRun.refl.call (.create 0 [97] 0) 0 (List.forall_mem_singleton.mpr (by decide))
  exact ⟨layout, mount, _, fresh, rfl, root_delete_fails_late fresh (by omega) run 1⟩

end MiniFs
