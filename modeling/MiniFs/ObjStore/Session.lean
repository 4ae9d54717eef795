import MiniFs.ObjStore.Open
import MiniFs.ObjStore.ReserveCost

/-!
# Runs of the store

A store is closed, being opened, idle, or in the middle of a call.  `SystemStep` takes one step at a
time, so that every cut of a run is a reachable state.  The log is what callers know: for each path
created, the payloads of the acknowledged writes to it.
-/

namespace MiniFs.ObjStore

/-- A call that may change an object.  Times are read from the clock. -/
inductive Call
  | create (path : ByteString) (now : UInt64)
  | write (path : ByteString) (source : Source) (now : UInt64)

/-- The program of a call. -/
def Call.prog : Call → StoreProg (Except Status Unit)
  | create path now => ObjStore.create path now
  | write path source now => ObjStore.write path source now

/-- For each path created, the payloads of the writes acknowledged since, in call order. -/
abbrev Log : Type := ByteString → Option (List (List UInt8))

/-- The log after a successful call. -/
def Call.acknowledge : Call → Log → Log
  | create path _, log => Function.update log path (some [])
  | write path source _, log => Function.update log path ((log path).map (· ++ [source.data]))

/-- The log after a call returned. -/
def Log.returned (log : Log) (call : Call) : Except Status Unit → Log
  | .ok () => call.acknowledge log
  | .error _ => log

/-- What a process is doing. -/
inductive Phase
  | closed
  | opening (rest : PrimProg (Option (Except Status StoreMem)))
  | idle (mem : StoreMem)
  | running (call : Call) (rest : PrimProg (Except Status Unit × StoreMem))

/-- The media, the process, and the log. -/
structure System where
  media : Media
  phase : Phase
  log : Log

/-- One step of a store whose actions are those of `act`, which knows the call that is running, and
which may lose power as `crash` says. -/
inductive SystemStep (act : Option Call → Media → (op : PrimOp) → op.Res → Media → Prop)
    (crash : Media → Media → Prop) : System → System → Prop
  | openStore {media : Media} {log : Log} (sync : Bool) :
      SystemStep act crash ⟨media, .closed, log⟩ ⟨media, .opening (ObjStore.openStore sync), log⟩
  | opening {media media' : Media} {log : Log}
      {rest rest' : PrimProg (Option (Except Status StoreMem))}
      (step : Prog.Step (act none) (rest, media) (rest', media')) :
      SystemStep act crash ⟨media, .opening rest, log⟩ ⟨media', .opening rest', log⟩
  | opened {media : Media} {log : Log} {mem : StoreMem} :
      SystemStep act crash ⟨media, .opening (.ret (some (.ok mem))), log⟩ ⟨media, .idle mem, log⟩
  | openFailed {media : Media} {log : Log} {status : Status} :
      SystemStep act crash ⟨media, .opening (.ret (some (.error status))), log⟩
        ⟨media, .closed, log⟩
  | call {media : Media} {log : Log} {mem : StoreMem} (call : Call) :
      SystemStep act crash ⟨media, .idle mem, log⟩
        ⟨media, .running call (call.prog.refine storeSem mem), log⟩
  | running {media media' : Media} {log : Log} {call : Call}
      {rest rest' : PrimProg (Except Status Unit × StoreMem)}
      (step : Prog.Step (act (some call)) (rest, media) (rest', media')) :
      SystemStep act crash ⟨media, .running call rest, log⟩ ⟨media', .running call rest', log⟩
  | returned {media : Media} {log : Log} {call : Call} {result : Except Status Unit}
      {mem : StoreMem} :
      SystemStep act crash ⟨media, .running call (.ret (result, mem)), log⟩
        ⟨media, .idle mem, log.returned call result⟩
  | close {media : Media} {log : Log} {mem : StoreMem} :
      SystemStep act crash ⟨media, .idle mem, log⟩ ⟨media, .closed, log⟩
  | crash {media media' : Media} {phase : Phase} {log : Log} (lost : crash media media') :
      SystemStep act crash ⟨media, phase, log⟩ ⟨media', .closed, log⟩

/-- The states of a run. -/
def SystemReaches (act : Option Call → Media → (op : PrimOp) → op.Res → Media → Prop)
    (crash : Media → Media → Prop) : System → System → Prop :=
  Relation.ReflTransGen (SystemStep act crash)

section Lift

variable {act : Option Call → Media → (op : PrimOp) → op.Res → Media → Prop}
  {crash : Media → Media → Prop} {media media' : Media} {log : Log}

theorem SystemReaches.opening {rest rest' : PrimProg (Option (Except Status StoreMem))}
    (reach : Prog.Reaches (act none) (rest, media) (rest', media')) :
    SystemReaches act crash ⟨media, .opening rest, log⟩ ⟨media', .opening rest', log⟩ :=
  Relation.ReflTransGen.lift
    (fun config : PrimProg (Option (Except Status StoreMem)) × Media =>
      (⟨config.2, .opening config.1, log⟩ : System))
    (fun _ _ step => .opening step) _ _ reach

theorem SystemReaches.running {call : Call} {rest rest' : PrimProg (Except Status Unit × StoreMem)}
    (reach : Prog.Reaches (act (some call)) (rest, media) (rest', media')) :
    SystemReaches act crash ⟨media, .running call rest, log⟩ ⟨media', .running call rest', log⟩ :=
  Relation.ReflTransGen.lift
    (fun config : PrimProg (Except Status Unit × StoreMem) × Media =>
      (⟨config.2, .running call config.1, log⟩ : System))
    (fun _ _ step => .running step) _ _ reach

/-- A whole call. -/
theorem SystemReaches.call {call : Call} {mem mem' : StoreMem} {result : Except Status Unit}
    (reach : Prog.Reaches (act (some call)) (call.prog.refine storeSem mem, media)
      (.ret (result, mem'), media')) :
    SystemReaches act crash ⟨media, .idle mem, log⟩ ⟨media', .idle mem',
      log.returned call result⟩ :=
  .head (.call call) ((SystemReaches.running reach).tail .returned)

end Lift

/-- No loss of power. -/
def noCrash : Media → Media → Prop := fun _ _ => False

/-- A freshly formatted device, with whatever its data region held before. -/
def FreshDevice (disk : Disk) : Prop :=
  ∃ options raw, nebulaFormat options raw = (.ok (), disk)

/-- The read request of the bitmap counts its pages in 32 bits. -/
def BitmapFits (disk : Disk) : Prop := disk.capacityBlocks ≤ (2 ^ 32 - 1) * bitmapBitsPerPage

/-- A store on a device and an empty database. -/
def freshSystem (disk : Disk) : System where
  media := ⟨disk, ⟨SortedMap.empty, []⟩⟩
  phase := .closed
  log := fun _ => none

/-- An action that succeeds. -/
def okExec (op : PrimOp) (media : Media) : op.Res × Media :=
  op.exec ⟨.ok, fun _ => zeroBlock⟩ media

/-- What opening leaves of a new database. -/
def openedMedia (disk : Disk) : Media :=
  (((newMedia disk).commit false [.path [47] 0]).commit true [.schema kSchemaVersion]).commit true
    [.nextObj 1, .nextChunk 1]

/-- An action that puts no single counter and no chunk record. -/
def PrimOp.Opening (op : PrimOp) : Prop :=
  ∀ put, op = .write true [put] → ∃ version, put = .schema version

/-- An action that only reads the database. -/
def PrimOp.Reads (op : PrimOp) : Prop := ∃ key, op = .get key

/-- The chunk scan only reads. -/
theorem scanChunks_reads (fuel : Nat) : ∀ (id : UInt32) (active : Option Chunk),
    (scanChunks fuel id active).Issues PrimOp.Reads fun _ => True := by
  induction fuel with
  | zero => exact fun _ _ => trivial
  | succ fuel ih =>
      intro id active
      refine ⟨⟨_, rfl⟩, fun bytes => ?_⟩
      simp only
      split
      · trivial
      · trivial
      · exact ih _ _

theorem openStore_opening (sync : Bool) :
    (openStore sync).Issues PrimOp.Opening fun _ => True := by
  have root : openRootEntry.Issues PrimOp.Opening fun _ => True := by
    refine ⟨by simp [PrimOp.Opening], ?_⟩
    rintro (_ | _ | _)
    · trivial
    · refine ⟨by simp [PrimOp.Opening], ?_⟩
      rintro (_ | _) <;> trivial
    · trivial
  have schema : initOrCheckSchema.Issues PrimOp.Opening fun _ => True := by
    refine ⟨by simp [PrimOp.Opening], ?_⟩
    rintro (_ | _ | _)
    · trivial
    · refine ⟨by simp [PrimOp.Opening], ?_⟩
      rintro (_ | _) <;> trivial
    · simp only
      split
      · trivial
      · split_ifs <;> trivial
  have counters : readCounters.Issues PrimOp.Opening fun _ => True := by
    refine ⟨by simp [PrimOp.Opening], fun bytes => ?_⟩
    simp only
    split
    · trivial
    · refine ⟨by simp [PrimOp.Opening], fun bytes => ?_⟩
      simp only
      split
      · trivial
      · refine ⟨by simp [PrimOp.Opening], ?_⟩
        rintro (_ | _) <;> trivial
  refine ⟨by simp [PrimOp.Opening], ?_⟩
  rintro (_ | mount)
  · trivial
  · have metadata : metadataOpen.Issues PrimOp.Opening fun _ => True := by
      refine root.bind ?_
      rintro (_ | _) -
      · trivial
      · refine schema.bind ?_
        rintro (_ | _) -
        · trivial
        · exact counters
    refine metadata.bind ?_
    rintro (_ | _) -
    · trivial
    · have reads : ∀ op, PrimOp.Reads op → PrimOp.Opening op := by
        rintro _ ⟨key, rfl⟩
        simp [PrimOp.Opening]
      refine ((scanChunks_reads _ _ _).allow reads).bind ?_
      rintro (_ | _ | _) - <;> trivial

theorem openStore_run {disk : Disk} {mount : NebulaMount}
    (mounts : nebulaMountDo (fun _ => zeroBlock) disk = .ok mount) :
    (openStore true).run okExec (newMedia disk) =
      (some (.ok (newMem mount)), openedMedia disk) := by
  have mounted : okExec .mount (newMedia disk) = (.ok mount, newMedia disk) := Prod.ext mounts rfl
  have metadata : metadataOpen.run okExec (newMedia disk) = (.ok (1, 1), openedMedia disk) := rfl
  have scan : ∀ fuel, (scanChunks (fuel + 1) 1 none).run okExec (openedMedia disk) =
      (some (.ok none), openedMedia disk) := fun _ => rfl
  rw [openStore, Prog.run_call, mounted, show (2 ^ 32 : Nat) = 4294967295 + 1 from rfl]
  simp only [Prog.run_bind, metadata, scan, Prog.run_ret]
  rfl

/-- A store on a device that mounts and a new database opens. -/
theorem freshSystem_opens {act : Option Call → Media → (op : PrimOp) → op.Res → Media → Prop}
    {crash : Media → Media → Prop} {disk : Disk} {mount : NebulaMount}
    (lawful : ∀ media op, op.Opening → act none media op (okExec op media).1 (okExec op media).2)
    (mounts : nebulaMountDo (fun _ => zeroBlock) disk = .ok mount) :
    SystemReaches act crash (freshSystem disk)
      ⟨openedMedia disk, .idle (newMem mount), fun _ => none⟩ := by
  have runs : (openStore true).RunsBy okExec (fun _ op => op.Opening) (newMedia disk) :=
    (openStore_opening true).runsBy (fun _ _ opening => opening) _
  have reach := runs.reaches lawful
  rw [openStore_run mounts] at reach
  exact .head (.openStore true) ((SystemReaches.opening reach).tail .opened)

/-- The payloads of the ledger are those of the log. -/
def Ledger.Logs (L : Ledger) (log : Log) : Prop := ∀ path, (L path).map Object.payloads = log path

/-- The ledgers a call may lead to. -/
def Call.Next (L : Ledger) : Call → Ledger → Prop
  | create path _ => Created L path
  | write path source _ => Appended L path source.data

theorem Call.Next.logs {L L' : Ledger} {log : Log} {call : Call} (next : call.Next L L')
    (logs : L.Logs log) : L'.Logs (call.acknowledge log) := by
  intro p
  cases call with
  | create path now =>
      obtain ⟨o, -, none, rfl⟩ := next
      simp only [acknowledge]
      by_cases here : p = path
      · subst here
        simp [Object.payloads, none]
      · rw [Function.update_of_ne here, Function.update_of_ne here, logs p]
  | write path source now =>
      obtain ⟨o, a, segs, found, whole, rfl⟩ := next
      simp only [acknowledge]
      by_cases here : p = path
      · subst here
        rw [Function.update_self, Function.update_self, ← logs p, found]
        simp [Object.payloads, Object.append, whole]
      · rw [Function.update_of_ne here, Function.update_of_ne here, logs p]

theorem call_safe {options : FormatOptions} {layout : NebulaLayout} {Fresh Keyed : Prop}
    {L : Ledger}
    {act : Media → (op : PrimOp) → op.Res → Media → Prop} {mem : StoreMem} {media : Media}
    (actOk : ActOk Fresh Keyed act) (inv : StoreInv options layout Fresh Keyed L mem media)
    (call : Call) :
    (call.prog.refine storeSem mem).Safe act
      (fun before op _ after =>
        CallStep options layout Fresh Keyed (fun L' => L' = L ∨ call.Next L L') before op after)
      (CallPost options layout Fresh Keyed L (call.Next L)) media := by
  cases call with
  | create path now => exact create_safe actOk inv path now
  | write path source now => exact write_safe actOk inv path source now

/-! ## The invariant -/

/-- The invariant of a system, by phase. -/
inductive SystemInv (options : FormatOptions) (layout : NebulaLayout) (Fresh Keyed : Prop)
    (act : Media → (op : PrimOp) → op.Res → Media → Prop) : System → Prop
  | closed {media : Media} {log : Log} (L : Ledger) (logs : Fresh → Keyed → L.Logs log)
      (inv : ClosedInv options layout Fresh Keyed L media) :
      SystemInv options layout Fresh Keyed act ⟨media, .closed, log⟩
  | opening {media : Media} {log : Log} {rest : PrimProg (Option (Except Status StoreMem))}
      (L : Ledger) (logs : Fresh → Keyed → L.Logs log)
      (inv : ClosedInv options layout Fresh Keyed L media)
      (safe : rest.Safe act (fun before op _ after =>
        CallStep options layout Fresh Keyed (· = L) before op after)
        (OpenPost options layout Fresh Keyed L) media) :
      SystemInv options layout Fresh Keyed act ⟨media, .opening rest, log⟩
  | idle {media : Media} {log : Log} {mem : StoreMem} (L : Ledger)
      (logs : Fresh → Keyed → L.Logs log) (inv : StoreInv options layout Fresh Keyed L mem media) :
      SystemInv options layout Fresh Keyed act ⟨media, .idle mem, log⟩
  | running {media : Media} {log : Log} {call : Call}
      {rest : PrimProg (Except Status Unit × StoreMem)} (L : Ledger)
      (logs : Fresh → Keyed → L.Logs log)
      (cut : CutInv options layout Fresh Keyed (fun L' => L' = L ∨ call.Next L L') media)
      (safe : rest.Safe act (fun before op _ after =>
        CallStep options layout Fresh Keyed (fun L' => L' = L ∨ call.Next L L') before op after)
        (CallPost options layout Fresh Keyed L (call.Next L)) media) :
      SystemInv options layout Fresh Keyed act ⟨media, .running call rest, log⟩

section Runs

variable {options : FormatOptions} {layout : NebulaLayout} {Fresh Keyed : Prop}
  {act : Media → (op : PrimOp) → op.Res → Media → Prop} {crash : Media → Media → Prop}

theorem StoreInv.cut {L : Ledger} {mem : StoreMem} {media : Media} {Allowed : Ledger → Prop}
    (inv : StoreInv options layout Fresh Keyed L mem media) (allowed : Allowed L) :
    CutInv options layout Fresh Keyed Allowed media :=
  ⟨inv.toMediaOk, inv.ids, inv.extents, fun fresh keyed => ⟨L, allowed, inv.durable fresh keyed⟩⟩

theorem CutInv.closed {L : Ledger} {media : Media}
    (cut : CutInv options layout Fresh Keyed (· = L) media) :
    ClosedInv options layout Fresh Keyed L media :=
  ⟨cut.media, cut.ids, cut.extents, fun fresh keyed => by
    obtain ⟨_, rfl, durable⟩ := cut.durable fresh keyed
    exact durable⟩

/-- A log that the media agree with: the acknowledged one, or with the call under way added. -/
def System.Agrees (s : System) (log : Log) : Prop :=
  log = s.log ∨ ∃ call rest, s.phase = .running call rest ∧ log = call.acknowledge s.log

/-- What holds of the media of every system. -/
theorem SystemInv.cut {s : System} (inv : SystemInv options layout Fresh Keyed act s) :
    CutInv options layout Fresh Keyed (fun L => Fresh → Keyed → ∃ log, s.Agrees log ∧ L.Logs log)
      s.media := by
  cases inv with
  | closed L logs inv =>
      exact ⟨inv.toMediaOk, inv.ids, inv.extents, fun fresh keyed =>
        ⟨L, fun _ _ => ⟨_, .inl rfl, logs fresh keyed⟩, inv.durable fresh keyed⟩⟩
  | opening L logs inv safe =>
      exact ⟨inv.toMediaOk, inv.ids, inv.extents, fun fresh keyed =>
        ⟨L, fun _ _ => ⟨_, .inl rfl, logs fresh keyed⟩, inv.durable fresh keyed⟩⟩
  | idle L logs inv => exact inv.cut fun fresh keyed => ⟨_, .inl rfl, logs fresh keyed⟩
  | running L logs cut safe =>
      refine ⟨cut.media, cut.ids, cut.extents, fun fresh keyed => ?_⟩
      obtain ⟨L', allowed, durable⟩ := cut.durable fresh keyed
      refine ⟨L', fun _ _ => ?_, durable⟩
      rcases allowed with rfl | next
      · exact ⟨_, .inl rfl, logs fresh keyed⟩
      · exact ⟨_, .inr ⟨_, _, rfl, rfl⟩, next.logs (logs fresh keyed)⟩

/-- Every step keeps the invariant. -/
theorem SystemInv.step (actOk : ActOk Fresh Keyed act) (fits : layout.bitmapBlockCount < 2 ^ 32)
    (survives : ∀ ⦃media media'⦄, crash media media' → MediaOk options layout media →
      ¬ Fresh ∧ MediaOk options layout media')
    {s s' : System} (inv : SystemInv options layout Fresh Keyed act s)
    (step : SystemStep (fun _ => act) crash s s') : SystemInv options layout Fresh Keyed act
    s' := by
  have media := inv.cut.media
  cases step with
  | openStore sync =>
      cases inv with
      | closed L logs inv => exact .opening L logs inv (openStore_safe actOk inv fits sync)
  | opening step =>
      cases inv with
      | opening L logs inv safe =>
          cases step with
          | call acted =>
              obtain ⟨ok, rest⟩ := safe _ _ acted
              exact .opening L logs ok.toCutInv.closed rest
  | opened =>
      cases inv with
      | opening L logs inv safe => exact .idle L logs (safe.opened _ rfl)
  | openFailed =>
      cases inv with
      | opening L logs inv safe => exact .closed L logs inv
  | call call =>
      cases inv with
      | idle L logs inv => exact .running L logs (inv.cut (.inl rfl)) (call_safe actOk inv call)
  | running step =>
      cases inv with
      | running L logs cut safe =>
          cases step with
          | call acted =>
              obtain ⟨ok, rest⟩ := safe _ _ acted
              exact .running L logs ok.toCutInv rest
  | returned =>
      rename_i result mem
      cases inv with
      | running L logs cut safe =>
          cases result with
          | error status => exact .idle L logs (safe.error status rfl)
          | ok done =>
              obtain ⟨L', next, inv'⟩ := safe.ok rfl
              exact .idle L' (fun fresh keyed => (next fresh keyed).logs (logs fresh keyed)) inv'
  | close =>
      cases inv with
      | idle L logs inv => exact .closed L logs inv.closed
  | crash lost =>
      obtain ⟨stale, kept⟩ := survives lost media
      exact .closed (fun _ => none) (fun fresh => absurd fresh stale)
        ⟨kept, fun fresh => absurd fresh stale, fun fresh => absurd fresh stale,
          fun fresh => absurd fresh stale⟩

/-- Every run keeps the invariant. -/
theorem SystemInv.reaches (actOk : ActOk Fresh Keyed act) (fits : layout.bitmapBlockCount < 2 ^ 32)
    (survives : ∀ ⦃media media'⦄, crash media media' → MediaOk options layout media →
      ¬ Fresh ∧ MediaOk options layout media')
    {s s' : System} (inv : SystemInv options layout Fresh Keyed act s)
    (run : SystemReaches (fun _ => act) crash s s') : SystemInv options layout Fresh Keyed act
    s' := by
  induction run with
  | refl => exact inv
  | tail _ step ih => exact ih.step actOk fits survives step

end Runs

@[simp] theorem Db.lookup_empty (key : MetaKey) : Db.lookup SortedMap.empty key = none := rfl

@[simp] theorem Db.chunk?_empty (cid : UInt32) : Db.chunk? SortedMap.empty cid = none := rfl

@[simp] theorem Db.extent?_empty (oid off : UInt64) : Db.extent? SortedMap.empty oid off = none :=
  rfl

theorem persist_empty (disk : Disk) : Persist (fun _ => none) SortedMap.empty disk where
  keys := by
    intro entry member
    exact absurd member (by simp [SortedMap.empty])
  sound := ⟨by simp, by simp, by simp, by simp⟩
  path := fun _ _ => rfl
  attrs := by simp
  extents := by simp
  owned := by simp
  below := by simp
  stored := by simp [Ledger.Holds]

/-- A formatted device keeps its metadata marked. -/
theorem deviceOk_of_formatted {options : FormatOptions} {layout : NebulaLayout} {disk : Disk}
    (sound : layout.Sound) (capacity : disk.capacityBlocks = layout.capacityBlocks)
    (settled : disk.cells.pending = []) (formatted : Formatted options layout disk.content) :
    DeviceOk options layout disk where
  mountable := Mountable.of_formatted sound capacity formatted
  pending_ge := by simp [settled]
  reserved := by
    intro page inside image held
    have durable : disk.cells.durable (layout.bitmapLba + page) = formatBitmap layout page := by
      rw [← formatted.bitmap page inside, Disk.content, WriteCache.content, settled]
      rfl
    rcases held with rfl | pending
    · rw [durable]
      apply imageMarks_page
      intro index here
      rw [bitGet_formatBitmap, decide_eq_true here.1, Bool.true_and, lbaIsMetadata]
      simp only [Bool.or_eq_true, decide_eq_true_eq]
      have region := here.2
      have tail := sound.allocRootsTail_eq
      omega
    · rw [settled] at pending
      exact absurd pending (by simp)

/-- A store on a freshly formatted device and an empty database. -/
theorem freshSystem_inv {disk : Disk} (fresh : FreshDevice disk) (fits : BitmapFits disk)
    (Fresh Keyed : Prop) (act : Media → (op : PrimOp) → op.Res → Media → Prop) :
    ∃ options layout, layout.bitmapBlockCount < 2 ^ 32 ∧
      SystemInv options layout Fresh Keyed act (freshSystem disk) := by
  obtain ⟨options, raw, done⟩ := fresh
  obtain ⟨layout, sound, rawCapacity, capacity, settled, formatted, -⟩ := nebulaFormat_spec done
  have tight := sound.bitmap_tight
  have same : disk.capacityBlocks = layout.capacityBlocks := capacity.trans rawCapacity.symm
  have count : layout.bitmapBlockCount < 2 ^ 32 := by
    simp only [BitmapFits, bitmapBitsPerPage] at fits
    omega
  refine ⟨options, layout, count, .closed (fun _ => none) (fun _ _ _ => rfl) ?_⟩
  have view : ∀ recovered, (freshSystem disk).media.db.Recoverable recovered →
      recovered = SortedMap.empty := by
    rintro recovered ⟨kept, rfl⟩
    simp [freshSystem]
  have none : ∀ index, ¬ RecordedBlock SortedMap.empty index := by
    rintro index ⟨cid, c, found, -⟩
    simp at found
  have records : RecordsOk layout SortedMap.empty :=
    ⟨by simp, by simp, by simp, by simp⟩
  refine ⟨⟨deviceOk_of_formatted sound same settled formatted, records,
    fun index recorded => absurd recorded (none index), ?_⟩, fun _ cid c found => ?_, fun _ => ?_,
    fun _ _ => ⟨persist_empty disk, ?_⟩⟩
  · intro recovered recoverable
    rw [view recovered recoverable]
    exact ⟨records, fun index recorded => absurd recorded (none index)⟩
  · exact absurd found (by simp [Media.view, LoggedMap.view])
  · exact ⟨fun _ _ _ stored => absurd stored (by simp [Media.view, LoggedMap.view]),
      fun _ _ _ _ _ _ stored => absurd stored (by simp [Media.view, LoggedMap.view])⟩
  · intro recovered recoverable
    rw [view recovered recoverable]
    exact ⟨fun _ => Option.none, Ledger.Le.refl _, persist_empty disk, ChunksGrow.refl _⟩

end MiniFs.ObjStore
