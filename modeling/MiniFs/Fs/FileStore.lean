import MiniFs.Fs.DirectoryMap
import MiniFs.Fs.ReadAfterWrite

/-!
# The file system as a store of files

With at most one handle on a file and writes that end below 2^64, the file system is a map from
names to files.  Each call is specified by this map: which names it finds, what it answers, and
which handles it leaves behind.
-/

namespace MiniFs

open Fs

/-- The name is listed. -/
def Entries.Has (entries : Entries) (name : Name) : Prop :=
  ∃ slot number, entries slot = some (name, number)

/-- The files after a call, as its client can tell from the answer. -/
def FsSystem.files (system : FsSystem) (call : FsCall) (result : FsResult)
    (files : Name → Option FileView) : Name → Option FileView :=
  match call, result with
  | .create _ name _, .handle _ => Function.update files name (some .empty)
  | .delete name, .done => Function.update files name none
  | .write index offset data, result =>
      match system.handles index with
      | none => files
      | some handle => Function.update files handle.name
          ((files handle.name).map fun view => view.write offset.toNat data result.written)
  | _, _ => files

/-- The files are those of the system. -/
structure FileStore (uuid : Bytes 16) (layout : NebulaLayout) (origin : Disk) (system : FsSystem)
    (entries : Entries) (files : Name → Option FileView) : Prop where
  inv : FsInv uuid layout origin system entries
  one : OneHandle layout system entries
  views : Views layout system entries fun name => (files name).getD .empty
  names : ∀ name, files name ≠ none ↔ entries.Has name
  nonempty : ∀ name, files name ≠ none → name ≠ []

/-- No handle is on the file. -/
def FsSystem.Unopened (system : FsSystem) (name : Name) : Prop :=
  ∀ index handle, system.handles index = some handle → handle.name ≠ name

/-- What a call answers for a name that is not there. -/
def missing (name : Name) : Errno := if dirNameMax ≤ name.length then .ENAMETOOLONG else .ENOENT

/-- Why a file cannot have the name, if it cannot. -/
def nameRefusal (name : Name) : Option Errno :=
  if name = [] then some .EINVAL else if dirNameMax ≤ name.length then some .ENAMETOOLONG else none

/-- There is a free inode and a free slot. -/
def HasRoom (layout : NebulaLayout) (disk : Disk) : Prop :=
  (∃ number, 0 < number ∧ number < layout.inodePageBlockCount ∧
    (inodeAt layout disk number).type = inodeTypeFree) ∧
  ∃ slot < slotCount layout, (slotAt layout disk slot).used = false

theorem FsSystem.setHandle_held (system : FsSystem) (index : Nat) (handle : Option Handle) :
    (system.setHandle index handle).handles index = handle := Function.update_self ..

namespace Entries

variable {entries : Entries} {slot number : Nat} {name other : Name}

theorem has_add (vacant : entries slot = none) :
    Has (Function.update entries slot (some (name, number))) other ↔
      other = name ∨ entries.Has other := by
  constructor
  · rintro ⟨slot', number', holds⟩
    by_cases here : slot' = slot
    · rw [here, Function.update_self, Option.some.injEq, Prod.mk.injEq] at holds
      exact .inl holds.1.symm
    · rw [Function.update_of_ne here] at holds
      exact .inr ⟨slot', number', holds⟩
  · rintro (rfl | ⟨slot', number', holds⟩)
    · exact ⟨slot, number, Function.update_self ..⟩
    · refine ⟨slot', number', ?_⟩
      rwa [Function.update_of_ne]
      rintro rfl
      rw [vacant] at holds
      contradiction

theorem has_remove {layout : NebulaLayout} {disk : Disk} (dir : DirOk layout disk entries)
    (listed : entries slot = some (name, number)) :
    Has (Function.update entries slot none) other ↔ other ≠ name ∧ entries.Has other := by
  constructor
  · rintro ⟨slot', number', holds⟩
    by_cases here : slot' = slot
    · rw [here, Function.update_self] at holds
      contradiction
    · rw [Function.update_of_ne here] at holds
      refine ⟨fun same => here ?_, slot', number', holds⟩
      exact dir.distinct slot' slot other name number' number holds listed (.inl same)
  · rintro ⟨apart, slot', number', holds⟩
    refine ⟨slot', number', ?_⟩
    rwa [Function.update_of_ne]
    rintro rfl
    rw [listed, Option.some.injEq, Prod.mk.injEq] at holds
    exact apart holds.1.symm

end Entries

section Keep

variable {uuid : Bytes 16} {layout : NebulaLayout} {origin : Disk} {system : FsSystem}
  {entries : Entries} {files : Name → Option FileView}

theorem Views.congr {views views' : Name → FileView} (known : Views layout system entries views)
    (same : ∀ name, entries.Has name → views' name = views name) :
    Views layout system entries views' := by
  intro slot name number inode listed current
  rw [same name ⟨slot, number, listed⟩]
  exact known slot name number inode listed current

theorem FsSystem.files_view {call : FsCall} {result : FsResult} {name : Name}
    (bound : ∀ index handle, system.handles index = some handle → files handle.name ≠ none)
    (there : system.files call result files name ≠ none) :
    (system.files call result files name).getD .empty =
      system.view call result (fun name => (files name).getD .empty) name := by
  cases call with
  | create index made mode =>
      cases result with
      | handle file =>
          simp only [FsSystem.files, FsSystem.view, Function.update_apply]
          split_ifs <;> rfl
      | error | done | count | bytes | inode | items => rfl
  | delete gone =>
      cases result with
      | done =>
          simp only [FsSystem.files, FsSystem.view, Function.update_apply] at there ⊢
          split_ifs at there ⊢
          · contradiction
          · rfl
      | error | handle | count | bytes | inode | items => rfl
  | write index offset data =>
      simp only [FsSystem.files, FsSystem.view]
      cases held : system.handles index with
      | none => rfl
      | some handle =>
          obtain ⟨view, is⟩ := Option.ne_none_iff_exists'.mp (bound index handle held)
          simp only [Function.update_apply, is]
          split_ifs <;> rfl
  | «open» | read | close | lookup | readdir | remount => rfl

theorem fileFlags_dir : (dirFlagUsed ||| dirFlagFile) &&& dirFlagDir = 0 := by
  decide

namespace FileStore

/-- The file of a handle is there. -/
theorem held_file (store : FileStore uuid layout origin system entries files) {index : Nat}
    {handle : Handle} (held : system.handles index = some handle) :
    ∃ view, files handle.name = some view ∧ view.Shown handle.file.inode system.state.disk := by
  obtain ⟨slot, listed⟩ := store.one.listed store.inv held
  obtain ⟨view, is⟩ := Option.ne_none_iff_exists'.mp
    ((store.names handle.name).mpr ⟨slot, _, listed⟩)
  have shown := store.views _ _ _ _ listed (.opened held)
  simp only [is, Option.getD_some] at shown
  exact ⟨view, is, shown⟩

theorem names_keep (store : FileStore uuid layout origin system entries files) {call : FsCall}
    {result : FsResult} {after : FsSystem} {entries' : Entries}
    (effect : Effect uuid layout system entries call result after entries') :
    (∀ name, system.files call result files name ≠ none ↔ entries'.Has name) ∧
      ∀ name, system.files call result files name ≠ none → name ≠ [] := by
  have written : ∀ {index offset data} {result : FsResult} (name : Name),
      system.files (.write index offset data) result files name ≠ none ↔ files name ≠ none := by
    intro index offset data result name
    simp only [FsSystem.files]
    cases held : system.handles index with
    | none => rfl
    | some handle =>
        simp only [Function.update_apply]
        split_ifs with here
        · rw [here, ne_eq, Option.map_eq_none_iff]
        · rfl
  have kept : (∀ name, system.files call result files name ≠ none ↔ files name ≠ none) →
      entries' = entries →
        (∀ name, system.files call result files name ≠ none ↔ entries'.Has name) ∧
        ∀ name, system.files call result files name ≠ none → name ≠ [] := by
    rintro same rfl
    exact ⟨fun name => (same name).trans (store.names name),
      fun name there => store.nonempty name ((same name).mp there)⟩
  cases effect with
  | idle idle =>
      refine kept (fun name => ?_) rfl
      cases call with
      | write => exact written name
      | create index made mode =>
          cases result with
          | handle file => exact absurd idle id
          | error | done | count | bytes | inode | items => rfl
      | delete gone =>
          cases result with
          | done => exact absurd idle id
          | error | handle | count | bytes | inode | items => rfl
      | «open» | read | close | lookup | readdir | remount => rfl
  | @created index made mode now slot number writes created magic unrefused =>
      constructor
      · intro name
        rw [Entries.has_add created.vacant, ← store.names]
        simp only [FsSystem.files, Function.update_apply]
        split_ifs with here <;> simp [here]
      · intro name there
        simp only [FsSystem.files, Function.update_apply] at there
        split_ifs at there with here
        · rintro empty
          rw [createRefusal, addRefusal, if_pos (here.symm.trans empty)] at unrefused
          split_ifs at unrefused
        · exact store.nonempty name there
  | @deleted gone slot number after writes listed solid disk pages bits =>
      constructor
      · intro name
        rw [Entries.has_remove store.inv.dir.toDirOk listed, ← store.names]
        simp only [FsSystem.files, Function.update_apply]
        split_ifs with here <;> simp [here]
      · intro name there
        simp only [FsSystem.files, Function.update_apply] at there
        split_ifs at there
        · contradiction
        · exact store.nonempty name there
  | short | wrote => exact kept written rfl
  | uncreated | opened | read | closed | stored | remounted => exact kept (fun _ => Iff.rfl) rfl

/-- Every effect of a call keeps the store. -/
theorem keep (store : FileStore uuid layout origin system entries files) {call : FsCall}
    (plain : call.Plain system) {result : FsResult} {after : FsSystem} {entries' : Entries}
    (effect : Effect uuid layout system entries call result after entries') :
    FileStore uuid layout origin after entries' (system.files call result files) := by
  obtain ⟨names, nonempty⟩ := store.names_keep effect
  have views := store.views.keep store.one store.inv plain effect
  refine ⟨store.inv.keep effect, store.one.keep store.inv plain.1 effect, ?_, names, nonempty⟩
  refine views.congr fun name has => FsSystem.files_view ?_ ((names name).mpr has)
  intro index handle held
  obtain ⟨view, is, -⟩ := store.held_file held
  rw [is]
  exact Option.some_ne_none view

section Answers

variable {name : Name} {view : FileView} {index : Nat} {handle : Handle}

theorem other (store : FileStore uuid layout origin system entries files)
    (there : files name ≠ none) : name ≠ [47] := by
  obtain ⟨slot, number, listed⟩ := (store.names name).mp there
  exact (store.inv.dir.named slot name number listed).2.1

theorem run_lookup_missing (store : FileStore uuid layout origin system entries files)
    (absent : files name = none) (other : name ≠ [47]) :
    (nebulaDirLookup name).run system.state = (.error (missing name), system.state) := by
  rw [missing]
  split_ifs with long
  · exact DirOk.lookup_long long
  · refine store.inv.dir.lookup_absent store.inv.solid.ready (not_le.mp long) other ?_
    intro slot number listed
    exact (store.names name).mpr ⟨slot, number, listed⟩ absent

theorem lookup_there (store : FileStore uuid layout origin system entries files)
    (there : files name ≠ none) (now : UInt64) :
    ∃ inodeNum, system.perform (.lookup name) now = (.inode inodeNum, system) := by
  obtain ⟨slot, number, listed⟩ := (store.names name).mp there
  refine ⟨UInt64.ofNat number, ?_⟩
  simp only [FsSystem.perform, nebulaFsLookup, store.inv.lookup_names (.inr ⟨slot, listed⟩)]
  rfl

theorem lookup_missing (store : FileStore uuid layout origin system entries files)
    (absent : files name = none) (other : name ≠ [47]) (now : UInt64) :
    system.perform (.lookup name) now = (.error (missing name), system) := by
  simp only [FsSystem.perform, nebulaFsLookup, store.run_lookup_missing absent other]
  rfl

theorem open_missing (store : FileStore uuid layout origin system entries files)
    (absent : files name = none) (other : name ≠ [47]) (index : Nat) (flags : UInt32)
    (now : UInt64) :
    system.perform (.open index name flags) now = (.error (missing name), system) := by
  simp only [FsSystem.perform, nebulaFsOpen, run_bind_error (store.run_lookup_missing absent other)]
  rfl

theorem delete_missing (store : FileStore uuid layout origin system entries files)
    (absent : files name = none) (other : name ≠ [47]) (now : UInt64) :
    system.perform (.delete name) now = (.error (missing name), system) := by
  simp only [FsSystem.perform, nebulaFsDelete,
    run_bind_error (store.run_lookup_missing absent other)]
  rfl

theorem open_there (store : FileStore uuid layout origin system entries files)
    (there : files name ≠ none) (empty : system.handles index = none)
    (unopened : system.Unopened name) {flags : UInt32}
    (access : flags &&& (openReadOnly ||| openWriteOnly) ≠ 0) (now : UInt64) :
    ∃ file, file.flags = flags ∧
      system.perform (.open index name flags) now =
        (.handle file, system.setHandle index (some ⟨name, file⟩)) ∧
      FileStore uuid layout origin (system.setHandle index (some ⟨name, file⟩)) entries files := by
  obtain ⟨slot, number, listed⟩ := (store.names name).mp there
  have names : entries.Names name number := .inr ⟨slot, listed⟩
  have plain : (FsCall.open index name flags).Plain system :=
    ⟨⟨empty, store.other there, unopened⟩, fun is => nomatch is⟩
  exact ⟨_, rfl, store.inv.perform_open names access index now, store.keep plain (.opened names)⟩

theorem createRefusal_of_room (store : FileStore uuid layout origin system entries files)
    (room : HasRoom layout system.state.disk) (absent : files name = none) (other : name ≠ [47]) :
    createRefusal layout system.state.disk name = nameRefusal name := by
  obtain ⟨⟨number, positive, inside, free⟩, slot, below, unused⟩ := room
  rw [createRefusal, if_neg fun full => full number inside positive free, addRefusal, nameRefusal]
  by_cases empty : name = []
  · rw [if_pos empty, if_pos empty]
  by_cases long : dirNameMax ≤ name.length
  · rw [if_neg empty, if_pos long, if_neg empty, if_pos long]
  rw [if_neg empty, if_neg long, if_neg empty, if_neg long, if_neg, if_neg]
  · intro full
    rw [full slot below] at unused
    contradiction
  · rintro ⟨slot', below', holds⟩
    have named := store.inv.dir.holdsName_iff (not_le.mp long) other below'
    obtain ⟨number', listed⟩ := named.mp holds
    exact (store.names name).mpr ⟨slot', number', listed⟩ absent

theorem nameRefusal_there (store : FileStore uuid layout origin system entries files)
    (there : files name ≠ none) : nameRefusal name = none := by
  obtain ⟨slot, number, listed⟩ := (store.names name).mp there
  have short := (store.inv.dir.named slot name number listed).1
  rw [nameRefusal, if_neg (store.nonempty name there), if_neg (not_le.mpr short)]

theorem createRefusal_absent (store : FileStore uuid layout origin system entries files)
    (absent : files name = none) (other : name ≠ [47]) {error : Errno}
    (refused : createRefusal layout system.state.disk name = some error) :
    nameRefusal name = some error ∨ error = .ENOSPC := by
  rw [createRefusal] at refused
  split_ifs at refused with full
  · exact .inr (Option.some.inj refused).symm
  rw [addRefusal] at refused
  rw [nameRefusal]
  by_cases empty : name = []
  · rw [if_pos empty] at refused ⊢
    exact .inl refused
  by_cases long : dirNameMax ≤ name.length
  · rw [if_neg empty, if_pos long] at refused ⊢
    exact .inl refused
  rw [if_neg empty, if_neg long] at refused
  split_ifs at refused with held
  · obtain ⟨slot, below, holds⟩ := held
    have named := store.inv.dir.holdsName_iff (not_le.mp long) other below
    obtain ⟨number, listed⟩ := named.mp holds
    exact absurd absent ((store.names name).mpr ⟨slot, number, listed⟩)
  · exact .inr (Option.some.inj refused).symm

theorem create (store : FileStore uuid layout origin system entries files)
    (empty : system.handles index = none) (text : ∀ byte ∈ name, byte ≠ 0) (mode : UInt32)
    (now : UInt64) :
    (createRefusal layout system.state.disk name = none ∧ files name = none ∧
      ∃ file after entries', file.flags = openReadWrite ∧
        system.perform (.create index name mode) now = (.handle file, after) ∧
        after.handles = Function.update system.handles index (some ⟨name, file⟩) ∧
        FileStore uuid layout origin after entries'
          (Function.update files name (some FileView.empty))) ∨
      ∃ error after, createRefusal layout system.state.disk name = some error ∧
        system.perform (.create index name mode) now = (.error error, after) ∧
        after.handles = system.handles ∧ FileStore uuid layout origin after entries files := by
  have plain : (FsCall.create index name mode).Plain system :=
    ⟨⟨empty, text⟩, fun is => nomatch is⟩
  obtain ⟨entries', effect⟩ := store.inv.create_effect text index mode now
  generalize performed : system.perform (.create index name mode) now = outcome at effect
  obtain ⟨result, after⟩ := outcome
  simp only at effect
  have kept := store.keep plain effect
  cases effect with
  | idle idle =>
      cases result with
      | error error =>
          rcases store.inv.dir.create_spec store.inv.solid.ready text mode now with
            ⟨slot, number, writes, -, -, -, -, -, ran⟩ | ⟨error', writes, -, -, -, -, refused, ran⟩
          · simp only [FsSystem.perform, ran, Prod.mk.injEq] at performed
            exact absurd performed.1 (by simp)
          · simp only [FsSystem.perform, ran, Prod.mk.injEq, FsResult.error.injEq] at performed
            exact .inr ⟨error, _, by rw [refused, performed.1], rfl, rfl, kept⟩
      | done | handle | count | bytes | inode | items => exact absurd idle id
  | created made magic unrefused =>
      refine .inl ⟨unrefused, ?_, _, _, _, rfl, rfl, rfl, kept⟩
      by_contra there
      obtain ⟨slot, number, listed⟩ := (store.names name).mp there
      exact made.absent slot number listed
  | uncreated left header root traceless refused => exact .inr ⟨_, _, refused, rfl, rfl, kept⟩

theorem hasRoom_of_deleted (store : FileStore uuid layout origin system entries files)
    {after : FsSystem} {entries' : Entries}
    (effect : Effect uuid layout system entries (.delete name) .done after entries') :
    HasRoom layout after.state.disk := by
  have table := (store.inv.keep effect).dir
  cases effect with
  | idle idle => exact absurd idle id
  | @deleted gone slot number after writes listed solid disk pages bits =>
      obtain ⟨-, inodes⟩ := store.inv.dir.unlist store.inv.solid.sound listed pages
      obtain ⟨-, -, positive, inside⟩ := store.inv.dir.named slot name number listed
      have cleared := inodes number inside
      rw [← disk, if_pos rfl] at cleared
      obtain ⟨low, below⟩ := store.inv.dir.inside listed
      refine ⟨⟨number, positive, inside, ?_⟩, slot, below, ?_⟩
      · simp only [FsSystem.dropHandles, FsSystem.withState, cleared]
        rfl
      · exact table.unused slot low below (Function.update_self ..)

theorem delete_there (store : FileStore uuid layout origin system entries files)
    (there : files name ≠ none) (unopened : system.Unopened name) (now : UInt64) :
    ∃ after entries', system.perform (.delete name) now = (.done, after) ∧
      after.handles = system.handles ∧ HasRoom layout after.state.disk ∧
      FileStore uuid layout origin after entries' (Function.update files name none) := by
  obtain ⟨slot, number, listed⟩ := (store.names name).mp there
  obtain ⟨after, performed, effect⟩ := store.inv.perform_delete listed now
  have plain : (FsCall.delete name).Plain system :=
    ⟨⟨store.other there, unopened⟩, fun is => nomatch is⟩
  refine ⟨_, _, performed, ?_, store.hasRoom_of_deleted effect, store.keep plain effect⟩
  funext index
  simp only [FsSystem.dropHandles, FsSystem.withState]
  cases held : system.handles index with
  | none => rfl
  | some handle =>
      exact Option.filter_eq_some_iff.mpr ⟨rfl, decide_eq_true (unopened index handle held)⟩

theorem write (store : FileStore uuid layout origin system entries files)
    (held : system.handles index = some handle) (there : files handle.name = some view)
    (writable : handle.file.flags &&& openWriteOnly ≠ 0) {offset : UInt64} {data : List UInt8}
    (unwrapped : offset.toNat + data.length < 2 ^ 64) (now : UInt64) :
    ∃ n ≤ data.length, ∃ result kept after, kept.flags = handle.file.flags ∧
      (result = .count n ∧ (0 < n ∨ data = []) ∨
        n = 0 ∧ data ≠ [] ∧ ∃ error, result = .error error) ∧
      system.perform (.write index offset data) now = (result, after) ∧
      after.handles = Function.update system.handles index (some ⟨handle.name, kept⟩) ∧
      FileStore uuid layout origin after entries
        (Function.update files handle.name (some (view.write offset.toNat data n))) := by
  have plain : (FsCall.write index offset data).Plain system :=
    ⟨trivial, by rintro _ _ _ ⟨⟩; exact unwrapped⟩
  have effect := store.inv.write_effect index offset data now
  have self : system.handles = Function.update system.handles index (some handle) := by
    rw [← held, Function.update_eq_self]
  by_cases nothing : data = []
  · have performed : system.perform (.write index offset data) now = (.count 0, system) := by
      simp only [FsSystem.perform, held, nothing, fileWrite_nothing writable]
      rw [FsSystem.withState, FsSystem.keepFile_self held]
    have kept := store.keep plain effect
    simp only [performed, FsSystem.files, held, there, Option.map_some, FsResult.written] at kept
    exact ⟨0, Nat.zero_le _, _, handle.file, system, rfl, .inl ⟨rfl, .inr nothing⟩, performed, self,
      kept⟩
  generalize performed : system.perform (.write index offset data) now = outcome at effect
  obtain ⟨result, after⟩ := outcome
  simp only at effect
  have kept := store.keep plain effect
  simp only [FsSystem.files, held, there, Option.map_some] at kept
  cases effect with
  | idle idle =>
      cases result with
      | error error =>
          exact ⟨0, Nat.zero_le _, _, handle.file, _, rfl, .inr ⟨rfl, nothing, error, rfl⟩, rfl,
            self, kept⟩
      | count n => exact absurd idle.1 nothing
      | done | handle | bytes | inode | items => exact absurd idle id
  | @short index found offset data stop n next middle error held' ends flags dirty less within =>
      obtain rfl : found = handle := Option.some.inj (held'.symm.trans held)
      refine ⟨n, less.le, _, next, _, flags, ?_, rfl, rfl, ?_⟩
      · split_ifs with some
        · exact .inl ⟨rfl, .inl some⟩
        · exact .inr ⟨by omega, nothing, error, rfl⟩
      · split_ifs at kept ⊢ with some
        · exact kept
        · rwa [show n = 0 by omega]
  | @wrote index found offset data stop next middle now held' ends flags some within =>
      obtain rfl : found = handle := Option.some.inj (held'.symm.trans held)
      refine ⟨data.length, le_rfl, _, ⟨next.inode.written (offset + UInt64.ofNat data.length) now,
        next.flags, false⟩, _, flags, .inl ⟨rfl, .inl (List.length_pos_of_ne_nil some)⟩, rfl, rfl,
        kept⟩

theorem touch (store : FileStore uuid layout origin system entries files)
    (held : system.handles index = some handle) (time : UInt64) :
    FileStore uuid layout origin (system.keepFile index handle
      { handle.file with inode := { handle.file.inode with atimeNs := time } }) entries files := by
  have plain : (FsCall.read index 0 0).Plain system := ⟨trivial, fun is => nomatch is⟩
  exact store.keep plain (.read time held (.inr ⟨[], rfl⟩))

/-- There is one handle on a file. -/
theorem alone (store : FileStore uuid layout origin system entries files)
    (held : system.handles index = some handle) {second : Nat} {found : Handle}
    (held' : system.handles second = some found) (same : handle.name = found.name) :
    index = second := by
  obtain ⟨slot, listed⟩ := store.one.listed store.inv held'
  exact store.one.alone held held'
    ((store.inv.handle_name_iff held (.inr ⟨slot, listed⟩)).mp same)

theorem read (store : FileStore uuid layout origin system entries files)
    (held : system.handles index = some handle) (there : files handle.name = some view)
    (readable : handle.file.flags &&& openReadOnly ≠ 0) {offset : UInt64} {len : Nat}
    (unwrapped : offset.toNat + len < 2 ^ 64) (now : UInt64) :
    ∃ bytes file, file.flags = handle.file.flags ∧ view.ReadBy offset.toNat len bytes ∧
      system.perform (.read index offset len) now =
        (.bytes bytes, system.keepFile index handle file) ∧
      FileStore uuid layout origin (system.keepFile index handle file) entries files := by
  obtain ⟨view', is, shown⟩ := store.held_file held
  obtain rfl : view' = view := Option.some.inj (is.symm.trans there)
  obtain ⟨time, ran⟩ := fileRead_spec store.inv.solid (store.inv.handle_backs held) readable offset
    unwrapped now
  refine ⟨_, { handle.file with inode := { handle.file.inode with atimeNs := time } }, rfl,
    shown.reads offset.toNat len, ?_, store.touch held time⟩
  simp only [FsSystem.perform, held, ran]
  rfl

theorem close (store : FileStore uuid layout origin system entries files)
    (held : system.handles index = some handle) (now : UInt64) :
    ∃ after, system.perform (.close index) now = (.done, after) ∧
      after.handles = Function.update system.handles index none ∧
      FileStore uuid layout origin after entries files := by
  have plain : (FsCall.close index).Plain system := ⟨trivial, fun is => nomatch is⟩
  have effect := store.inv.close_effect index now
  generalize performed : system.perform (.close index) now = outcome at effect
  obtain ⟨result, after⟩ := outcome
  have kept := store.keep plain effect
  simp only [FsSystem.perform, held, run_fileClose store.inv.solid (store.inv.handle_lt held) now,
    Prod.mk.injEq] at performed
  obtain ⟨rfl, rfl⟩ := performed
  exact ⟨_, rfl, rfl, kept⟩

theorem readdir (store : FileStore uuid layout origin system entries files) (now : UInt64) :
    ∃ items, system.perform .readdir now = (.items items, system) ∧
      (items.map DirItem.name).Nodup ∧
      ∀ name, (∃ item ∈ items, item.name = name ∧ item.flags &&& dirFlagDir = 0) ↔
        files name ≠ none := by
  have dir := store.inv.dir.toDirOk
  have sound := store.inv.solid.sound
  obtain ⟨after, idles, ran | ⟨bad, -⟩⟩ := store.inv.solid.ready.placed.dirList_spec
  swap
  · exact absurd bad (FsState.not_faulty store.inv.solid.faultFree)
  rw [idles.eq store.inv.solid.faultFree] at ran
  refine ⟨_, by simp only [FsSystem.perform, nebulaFsReaddir, ran]; rfl, dir.listing_nodup sound,
    ?_⟩
  intro name
  rw [store.names]
  constructor
  · rintro ⟨item, member, rfl, flags⟩
    rw [List.mem_filterMap] at member
    obtain ⟨slot, within, listed⟩ := member
    rw [listedItem, Option.ite_none_right_eq_some] at listed
    obtain ⟨used, made⟩ := listed
    rw [← Option.some.inj made] at flags ⊢
    rcases dir.used_cases sound (List.mem_range.mp within) used with ⟨root, -⟩ | ⟨number, holds, -⟩
    · rw [root, dir.root] at flags
      contradiction
    · exact ⟨slot, number, holds⟩
  · rintro ⟨slot, number, holds⟩
    have short := (dir.named slot name number holds).1
    refine ⟨⟨name, UInt64.ofNat number, dirFlagUsed ||| dirFlagFile⟩, ?_, rfl, fileFlags_dir⟩
    rw [List.mem_filterMap]
    refine ⟨slot, List.mem_range.mpr (dir.inside holds).2, ?_⟩
    rw [dir.stored slot name _ holds, listedItem, if_pos (DirEntry.used_for _ _),
      DirEntry.listedName_for short (dir.text slot name _ holds)]
    rfl

theorem remount {options : FormatOptions}
    (store : FileStore options.uuid layout origin system entries files)
    (formatted : Mountable options layout origin) (closed : ∀ index, system.handles index = none)
    (heap : Nat → Block) (now : UInt64) :
    ∃ after, system.perform (.remount heap) now = (.done, after) ∧ after.handles = system.handles ∧
      FileStore options.uuid layout origin after entries files := by
  obtain ⟨mount, mounts, exact, bits⟩ :=
    store.inv.solid.exact.remount (store.inv.mountable formatted) heap
  have plain : (FsCall.remount heap).Plain system := ⟨closed, fun is => nomatch is⟩
  refine ⟨system.withState (system.state.withVolume ⟨system.state.disk, mount⟩), ?_, rfl,
    store.keep plain (.remounted closed exact bits)⟩
  simp only [FsSystem.perform, mounts]

end Answers

end FileStore

end Keep

end MiniFs
