import MiniFs.Nebula.AllocRuns

/-!
# Requests of the file system

The file system works on a mounted device through single block requests and through the block
allocator.  Any request may fail without effect: the environment decides, request by request and
block by block.
-/

namespace MiniFs

/-- A mounted device, and the fate of the coming requests.  Once the list has run out, no request
fails. -/
structure FsState extends Volume where
  faults : List (Nat → Bool)

/-- File system code: it may fail, and keeps its effects when it does. -/
abbrev Fs (α : Type) : Type := ExceptT Errno (StateM FsState) α

namespace FsState

/-- The fate of a request for a block. -/
def next (state : FsState) (lba : Nat) : IoOutcome × FsState :=
  match state.faults with
  | [] => (.ok, state)
  | fails :: rest =>
      (if fails lba then .fail fun _ => false else .ok, { state with faults := rest })

/-- The state with another device. -/
def withDisk (state : FsState) (disk : Disk) : FsState := { state with disk }

/-- The state with another mounted device. -/
def withVolume (state : FsState) (volume : Volume) : FsState := { state with toVolume := volume }

@[simp] theorem disk_withDisk (state : FsState) (disk : Disk) : (state.withDisk disk).disk = disk :=
  rfl

@[simp] theorem mount_withDisk (state : FsState) (disk : Disk) :
    (state.withDisk disk).mount = state.mount := rfl

@[simp] theorem faults_withDisk (state : FsState) (disk : Disk) :
    (state.withDisk disk).faults = state.faults := rfl

@[simp] theorem withDisk_self (state : FsState) : state.withDisk state.disk = state := rfl

@[simp] theorem toVolume_withVolume (state : FsState) (volume : Volume) :
    (state.withVolume volume).toVolume = volume := rfl

@[simp] theorem faults_withVolume (state : FsState) (volume : Volume) :
    (state.withVolume volume).faults = state.faults := rfl

end FsState

namespace Fs

variable {α β : Type}

/-- Run a program. -/
def run (program : Fs α) (state : FsState) : Except Errno α × FsState :=
  StateT.run (ExceptT.run program) state

/-- A program given by its runs. -/
def of (runs : FsState → Except Errno α × FsState) : Fs α := ExceptT.mk fun state => runs state

/-- The result of a program as a value. -/
def attempt (program : Fs α) : Fs (Except Errno α) :=
  of fun state => ((.ok (program.run state).1), (program.run state).2)

/-- The mount. -/
def mount : Fs NebulaMount := of fun state => (.ok state.mount, state)

/-- Read one block. -/
def ioRead (lba : Nat) : Fs Block := of fun state =>
  match state.next lba with
  | (outcome, state) =>
      ((nebulaIoRead outcome state.disk lba 1).map fun blocks => blocks.headD zeroBlock, state)

/-- Write one block. -/
def ioWrite (lba : Nat) (block : Block) : Fs Unit := of fun state =>
  match state.next lba with
  | (outcome, state) =>
      match nebulaIoWrite outcome state.disk lba [block] with
      | (result, disk) => (result, state.withDisk disk)

/-- `nebula_block_alloc`.  Its page request is announced by the first bitmap block. -/
def blockAlloc (n : Nat) : Fs Nat := of fun state =>
  match state.next state.mount.sb.bitmapLba.toNat with
  | (outcome, state) =>
      match nebulaBlockAlloc outcome state.disk state.mount n with
      | (result, disk, mount) => (result, state.withVolume ⟨disk, mount⟩)

/-- `nebula_block_free`. -/
def blockFree (lba n : Nat) : Fs Unit := of fun state =>
  match state.next state.mount.sb.bitmapLba.toNat with
  | (outcome, state) =>
      match nebulaBlockFree outcome state.disk state.mount lba n with
      | (result, disk, mount) => (result, state.withVolume ⟨disk, mount⟩)

@[simp] theorem run_of (runs : FsState → Except Errno α × FsState) (state : FsState) :
    (of runs).run state = runs state := rfl

@[simp] theorem run_pure (value : α) (state : FsState) :
    (pure value : Fs α).run state = (.ok value, state) := rfl

@[simp] theorem run_throw (error : Errno) (state : FsState) :
    (throw error : Fs α).run state = (.error error, state) := rfl

theorem run_bind (first : Fs α) (second : α → Fs β) (state : FsState) :
    (first >>= second).run state =
      match first.run state with
      | (.ok value, state) => (second value).run state
      | (.error error, state) => (.error error, state) := by
  simp only [run, bind, ExceptT.bind, ExceptT.run, ExceptT.mk, ExceptT.bindCont, StateT.bind,
    StateT.run]
  cases (first state : Except Errno α × FsState) with
  | mk result after => cases result <;> rfl

theorem run_bind_ok {first : Fs α} {second : α → Fs β} {state after : FsState} {value : α}
    (ran : first.run state = (.ok value, after)) :
    (first >>= second).run state = (second value).run after := by
  rw [run_bind, ran]

theorem run_bind_error {first : Fs α} {second : α → Fs β} {state after : FsState} {error : Errno}
    (ran : first.run state = (.error error, after)) :
    (first >>= second).run state = (.error error, after) := by
  rw [run_bind, ran]

@[simp] theorem run_mount (state : FsState) : mount.run state = (.ok state.mount, state) := rfl

@[simp] theorem run_attempt (program : Fs α) (state : FsState) :
    program.attempt.run state = (.ok (program.run state).1, (program.run state).2) := rfl

@[simp] theorem run_mount_bind (second : NebulaMount → Fs β) (state : FsState) :
    (mount >>= second).run state = (second state.mount).run state := run_bind_ok rfl

@[simp] theorem run_attempt_bind (program : Fs α) (second : Except Errno α → Fs β)
    (state : FsState) :
    (program.attempt >>= second).run state =
      (second (program.run state).1).run (program.run state).2 := run_bind_ok rfl

@[simp] theorem run_throw_bind (error : Errno) (second : α → Fs β) (state : FsState) :
    ((throw error : Fs α) >>= second).run state = (.error error, state) := run_bind_error rfl

@[simp] theorem run_pure_bind (value : α) (second : α → Fs β) (state : FsState) :
    ((pure value : Fs α) >>= second).run state = (second value).run state := run_bind_ok rfl

end Fs

end MiniFs
