import MiniFs.Fs.Invariant

/-!
# What a create answers

A create is refused for the first reason there is: no free inode, an empty name, a long name, a name
in use, no free slot.  A refused create leaves the device, the bitmap and the handles as they were,
since the inode it takes and gives back was a block of zeros.
-/

namespace MiniFs

open Fs

/-- The inodes that are not in use are blocks of zeros. -/
def FreeZero (layout : NebulaLayout) (disk : Disk) (entries : Entries) : Prop :=
  ∀ number, 0 < number → number < layout.inodePageBlockCount → ¬ entries.Lists number →
    inodeAt layout disk number = .zero

section Keep

variable {uuid : Bytes 16} {layout : NebulaLayout} {origin : Disk} {system : FsSystem}
  {entries : Entries}

theorem FreeZero.of_inodes (zero : FreeZero layout system.state.disk entries) {after : Disk}
    {entries' : Entries} (inodes : ∀ number, 0 < number → number < layout.inodePageBlockCount →
      ¬ entries'.Lists number → inodeAt layout after number = .zero ∨
        ¬ entries.Lists number ∧
          inodeAt layout after number = inodeAt layout system.state.disk number) :
    FreeZero layout after entries' := by
  intro number positive inside unlisted
  rcases inodes number positive inside unlisted with same | ⟨older, same⟩
  · exact same
  · rw [same]
    exact zero number positive inside older

/-- An inode that is stored is one of a listed file. -/
theorem FsInv.unlisted_ne (inv : FsInv uuid layout origin system entries) {index : Nat}
    {handle : Handle} (held : system.handles index = some handle) {number : Nat}
    (positive : 0 < number) (unlisted : ¬ entries.Lists number) : number ≠ handle.file.number := by
  rintro rfl
  rcases (inv.named held).1.live with root | listed
  · omega
  · exact unlisted listed

/-- Every effect keeps the free inodes zero. -/
theorem FreeZero.keep (zero : FreeZero layout system.state.disk entries)
    (inv : FsInv uuid layout origin system entries) {call : FsCall} {result : FsResult}
    {after : FsSystem} {entries' : Entries}
    (effect : Effect uuid layout system entries call result after entries') :
    FreeZero layout after.state.disk entries' := by
  cases effect with
  | idle => exact zero
  | opened => exact zero
  | read => exact zero
  | closed => exact zero
  | remounted => exact zero
  | @created index name mode now slot number writes made =>
      refine zero.of_inodes fun other positive inside unlisted => .inr ?_
      have apart : other ≠ number := by
        rintro rfl
        exact unlisted ⟨slot, name, Function.update_self ..⟩
      refine ⟨?_, ?_⟩
      · rintro ⟨slot', name', holds⟩
        refine unlisted ⟨slot', name', ?_⟩
        rwa [Function.update_of_ne]
        rintro rfl
        rw [made.vacant] at holds
        contradiction
      · exact (made.inodes other inside).trans (if_neg apart)
  | uncreated left =>
      refine zero.of_inodes fun other positive inside unlisted => ?_
      exact (left.inodes other inside).elim (fun same => .inr ⟨unlisted, same⟩) fun cleared =>
        .inl cleared.2
  | short error held ends =>
      exact zero.of_inodes fun other positive inside unlisted =>
        .inr ⟨unlisted, ends.grown.inodeAt_kept inside⟩
  | wrote held ends =>
      refine zero.of_inodes fun other positive inside unlisted => .inr ⟨unlisted, ?_⟩
      have apart := inv.unlisted_ne held positive unlisted
      exact (ends.grown.inodeAt_stored _ _ inside).trans (if_neg apart)
  | stored held =>
      refine zero.of_inodes fun other positive inside unlisted => .inr ⟨unlisted, ?_⟩
      have apart := inv.unlisted_ne held positive unlisted
      exact (inodeAt_store _ _ _).trans (if_neg apart)
  | @deleted name slot number after writes listed solid disk pages bits =>
      obtain ⟨-, inodes⟩ := inv.dir.unlist inv.solid.sound listed pages
      rw [← disk] at inodes
      refine zero.of_inodes fun other positive inside unlisted => ?_
      have cleared := inodes other inside
      split_ifs at cleared with here
      · exact .inl cleared
      · refine .inr ⟨?_, cleared⟩
        rintro ⟨slot', name', holds⟩
        refine unlisted ⟨slot', name', ?_⟩
        rwa [Function.update_of_ne]
        rintro rfl
        rw [listed, Option.some.injEq, Prod.mk.injEq] at holds
        exact here holds.2.symm

/-- Zeros that are written to a free inode were there. -/
theorem FreeZero.traceless (zero : FreeZero layout system.state.disk entries)
    (inv : FsInv uuid layout origin system entries) {writes : List (Nat × Block)}
    (traceless : Traceless layout system.state.disk writes) (lba : Nat) :
    (system.state.disk.push writes).content lba = system.state.disk.content lba := by
  rcases traceless lba with same | ⟨number, positive, inside, free, rfl, written⟩
  · exact same
  · have empty := zero number positive inside (inv.dir.unlisted_of_free free)
    rw [inodeAt, ← NebulaInode.layout_symm_zeroBlock] at empty
    rw [written]
    exact (NebulaInode.layout.symm.injective empty).symm

end Keep

/-- A create returns a handle, or the error it is refused for and nothing has changed. -/
def CreateAnswers (layout : NebulaLayout) (system : FsSystem) (index : Nat) (name : Name)
    (mode : UInt32) (now : UInt64) : Prop :=
  match createRefusal layout system.state.disk name with
  | none => ∃ file, (system.perform (.create index name mode) now).1 = .handle file
  | some error => (system.perform (.create index name mode) now).1 = .error error ∧
      (∀ lba, (system.perform (.create index name mode) now).2.state.disk.content lba =
        system.state.disk.content lba) ∧
      (system.perform (.create index name mode) now).2.state.mount = system.state.mount ∧
      (system.perform (.create index name mode) now).2.handles = system.handles

/-- In every state that calls reach, with any number of handles, a create is refused exactly for the
first reason there is, and then it leaves no trace. -/
theorem refused_create_traceless {options : FormatOptions} {layout : NebulaLayout} {volume : Volume}
    (fresh : volume.Fresh options layout) (small : layout.capacityBlocks ≤ 2 ^ 32)
    {reached : FsSystem}
    (run : FsReach FsCall.Sane (.fresh volume) reached) {name : Name}
    (text : ∀ byte ∈ name, byte ≠ 0) (index : Nat) (mode : UInt32) (now : UInt64) :
    CreateAnswers layout reached index name mode now := by
  obtain ⟨sound, -, -, formatted⟩ := fresh.spec
  have start : FreeZero layout volume.disk fun _ => none := by
    intro number positive inside _
    rw [formatted.inodeAt_eq inside, if_neg positive.ne']
  obtain ⟨entries, inv, zero⟩ := @FsRun.invariant _ options layout volume.disk FsCall.Sane _
    (.fresh volume) reached () () (fun _ => none) run fresh.mountable (fun sane => sane)
    (fresh.fsInv small) (fun system entries _ => FreeZero layout system.state.disk entries) start
    fun inv zero _ effect => zero.keep inv effect
  rw [CreateAnswers]
  rcases inv.dir.create_spec inv.solid.ready text mode now with
    ⟨slot, number, writes, -, -, -, -, unrefused, ran⟩ |
      ⟨error, writes, -, -, -, traceless, refused, ran⟩
  · rw [unrefused]
    simp only [FsSystem.perform, ran]
    exact ⟨_, rfl⟩
  · have performed : reached.perform (.create index name mode) now = (.error error,
        reached.withState (reached.state.withDisk (reached.state.disk.push writes))) := by
      simp only [FsSystem.perform, ran]
    rw [refused, performed]
    exact ⟨rfl, zero.traceless inv traceless, rfl, rfl⟩

/-- Every short name can be created first. -/
theorem Volume.Fresh.createRefusal_none {options : FormatOptions} {layout : NebulaLayout}
    {volume : Volume} (fresh : volume.Fresh options layout) {name : Name} (some : name ≠ [])
    (short : name.length < dirNameMax) (other : name ≠ [47]) :
    createRefusal layout volume.disk name = none := by
  obtain ⟨sound, -, -, formatted⟩ := fresh.spec
  have dir := fresh.dirOk
  have many := sound.inodeCount_ge
  have count := sound.dirCount_eq
  have room : 1 < slotCount layout := by
    rw [slotCount]
    omega
  rw [createRefusal, if_neg, addRefusal, if_neg some, if_neg (not_le.mpr short), if_neg, if_neg]
  · intro full
    have unused := dir.unused 1 Nat.one_pos room rfl
    rw [full 1 room] at unused
    contradiction
  · rintro ⟨slot, below, holds⟩
    obtain ⟨number, listed⟩ := (dir.holdsName_iff short other below).mp holds
    contradiction
  · intro full
    refine full 1 (by omega) Nat.one_pos ?_
    rw [formatted.inodeAt_eq (by omega), if_neg Nat.one_ne_zero]
    rfl

theorem Volume.Fresh.create_first {options : FormatOptions} {layout : NebulaLayout}
    {volume : Volume}
    (fresh : volume.Fresh options layout) (small : layout.capacityBlocks ≤ 2 ^ 32) {name : Name}
    (text : ∀ byte ∈ name, byte ≠ 0) (some : name ≠ []) (short : name.length < dirNameMax)
    (other : name ≠ [47]) (index : Nat) (mode : UInt32) (now : UInt64) :
    ∃ file, ((FsSystem.fresh volume).perform (.create index name mode) now).1 = .handle file ∧
      ((FsSystem.fresh volume).perform (.create index name mode) now).2.handles index =
        Option.some ⟨name, file⟩ := by
  have inv := fresh.fsInv small
  have unrefused := fresh.createRefusal_none some short other
  rcases inv.dir.create_spec inv.solid.ready text mode now with
    ⟨slot, number, writes, -, -, -, -, -, ran⟩ | ⟨error, writes, -, -, -, -, refused, -⟩
  · simp only [FsSystem.perform, ran, FsSystem.setHandle]
    exact ⟨_, rfl, Function.update_self ..⟩
  · rw [unrefused] at refused
    contradiction

theorem refused_create_traceless_plainDisk : ∃ layout mount,
    Volume.Fresh plainOptions layout ⟨plainDisk 65536 (by decide), mount⟩ ∧
    CreateAnswers layout ((FsSystem.fresh ⟨plainDisk 65536 (by decide), mount⟩).perform
      (.create 0 [97] 0) 0).2 1 [97] 0 1 := by
  obtain ⟨layout, mount, fresh, total⟩ := plainDisk_fresh
  exact ⟨layout, mount, fresh, refused_create_traceless fresh (by omega)
    (FsRun.refl.call (.create 0 [97] 0) 0 (List.forall_mem_singleton.mpr (by decide)))
    (List.forall_mem_singleton.mpr (by decide)) 1 0 1⟩

end MiniFs
