import MiniFs.ObjStore.IdReuse
import MiniFs.ObjStore.ReadBack

/-!
# The store as an append log

What callers may rely on between calls: `read` and `stat` return what the log says, and a call that
fails changes neither.  This holds as long as no id counter is advanced past its last value; past
it, ids are handed out again and an old object is overwritten.
-/

namespace MiniFs.ObjStore

/-- What `read` returns, by the log. -/
def Log.read (log : Log) (path : ByteString) (offset : UInt64) (size : Nat) :
    Except Status (List UInt8) :=
  if !validateObjectPath path then .error .ERROR_INVALID_ARGUMENT
  else
    match log path with
    | none => .error .ERROR_NOT_FOUND
    | some payloads =>
        if payloads.flatten.length < offset.toNat then .error .ERROR_OUT_OF_RANGE
        else .ok ((payloads.flatten.drop offset.toNat).take size)

/-- The size that `stat` returns, by the log. -/
def Log.size (log : Log) (path : ByteString) : Except Status Nat :=
  if !validateObjectPath path then .error .ERROR_INVALID_ARGUMENT
  else
    match log path with
    | none => .error .ERROR_NOT_FOUND
    | some payloads => .ok payloads.flatten.length

theorem Ledger.Logs.read_eq {L : Ledger} {log : Log} (logs : L.Logs log) (path : ByteString)
    (offset : UInt64) (size : Nat) : L.read path offset size = log.read path offset size := by
  rw [Ledger.read, Log.read, ← logs path]
  cases L path with
  | none => rfl
  | some o => rfl

/-- An action that is no failed database read and advances no id counter to 0. -/
def countingAct (before : Media) (op : PrimOp) (answer : op.Res) (after : Media) : Prop :=
  primAct before op answer after ∧ op.Answered answer ∧ op ≠ .write true [.nextObj 0] ∧
    op ≠ .write true [.nextChunk 0]

theorem actOk_countingAct : ActOk True True countingAct where
  sub := fun acted => acted.1
  freshObj := by
    rintro - before id answer after ⟨-, -, other, -⟩ rfl
    exact other rfl
  freshChunk := by
    rintro - before id answer after ⟨-, -, -, other⟩ rfl
    exact other rfl
  reads := fun acted => acted.2.1

theorem not_noCrash {options : FormatOptions} {layout : NebulaLayout} {Fresh : Prop} :
    ∀ ⦃media media' : Media⦄, noCrash media media' → MediaOk options layout media →
      ¬ Fresh ∧ MediaOk options layout media' :=
  fun _ _ lost => absurd lost id

/-- What readers see of a store whose objects are those of a ledger. -/
theorem StoreInv.reads {options : FormatOptions} {layout : NebulaLayout} {L : Ledger}
    {mem : StoreMem} {media : Media} (inv : StoreInv options layout True True L mem media) :
    (∀ path offset size, read media path offset size = L.read path offset size) ∧
      ∀ path, stat media path = L.stat path :=
  have persist := (inv.durable trivial trivial).now
  ⟨persist.read_eq inv.toMediaOk, persist.stat_eq⟩

theorem StoreInv.stat_size {options : FormatOptions} {layout : NebulaLayout} {L : Ledger}
    {log : Log}
    {mem : StoreMem} {media : Media} (inv : StoreInv options layout True True L mem media)
    (logs : L.Logs log) (path : ByteString) :
    (stat media path).map (·.size.toNat) = log.size path := by
  rw [inv.reads.2, Ledger.stat, Log.size, ← logs path]
  split_ifs with invalid
  · rfl
  · cases found : L path with
    | none => rfl
    | some o =>
        have size := ((inv.durable trivial trivial).now.attrs found).2.2
        simp only [Except.map, size, Option.map_some, o.length_flatten_payloads]

/-- In every run from a new store, between calls: reads and sizes are those of the log, and a call
that fails leaves what readers see of every object as it was. -/
def RefinesLog (act : Media → (op : PrimOp) → op.Res → Media → Prop) (disk : Disk) : Prop :=
  ∀ media mem log, SystemReaches (fun _ => act) noCrash (freshSystem disk) ⟨media, .idle mem, log⟩ →
    (∀ path offset size, read media path offset size = log.read path offset size) ∧
    (∀ path, (stat media path).map (·.size.toNat) = log.size path) ∧
    ∀ (call : Call) (status : Status) (mem' : StoreMem) (media' : Media),
      Prog.Reaches act (call.prog.refine storeSem mem, media) (.ret (.error status, mem'), media') →
        ∀ path, (∀ offset size, read media' path offset size = read media path offset size) ∧
          stat media' path = stat media path

/-- On a freshly formatted device, the store refines the log in the runs in which no id counter is
advanced past its last value. -/
theorem store_refines_append_log {disk : Disk} (fresh : FreshDevice disk) (fits : BitmapFits disk) :
    RefinesLog countingAct disk := by
  intro media mem log run
  obtain ⟨options, layout, count, start⟩ := freshSystem_inv fresh fits True True countingAct
  have inv := start.reaches actOk_countingAct count not_noCrash run
  cases inv with
  | idle L logs inv =>
      have logged := logs trivial trivial
      refine ⟨fun path offset size => ?_, inv.stat_size logged, ?_⟩
      · rw [inv.reads.1, logged.read_eq]
      · intro call status mem' media' failed path
        have post := Prog.Safe.reaches (call_safe actOk_countingAct inv call : Prog.Safe _ _ _
          (call.prog.refine storeSem mem, media).1 _) failed
        have inv' := post.error status rfl
        exact ⟨fun offset size =>
          (inv'.reads.1 path offset size).trans (inv.reads.1 path offset size).symm,
          (inv'.reads.2 path).trans (inv.reads.2 path).symm⟩

theorem countingAct_okExec {media : Media} {op : PrimOp} (first : FirstAct media op) :
    countingAct media op (okExec op media).1 (okExec op media).2 := by
  refine ⟨(answeredAct_okExec media op).1, (answeredAct_okExec media op).2, ?_, ?_⟩
  · rintro rfl
    exact absurd (first.1 0 rfl) (by decide)
  · rintro rfl
    exact absurd (first.2 0 rfl).1 (by decide)

/-- A run whose write is acknowledged, closed and opened again. -/
theorem store_refines_append_log_plainDisk : ∃ disk media media' mem mem', FreshDevice disk ∧
    BitmapFits disk ∧
    SystemReaches (fun _ => countingAct) noCrash (freshSystem disk)
      ⟨media, .idle mem, writtenLog⟩ ∧
    SystemReaches (fun _ => countingAct) noCrash ⟨media, .idle mem, writtenLog⟩
      ⟨media', .idle mem', writtenLog⟩ ∧
    writtenLog samplePath = some [[0]] ∧ RefinesLog countingAct disk := by
  obtain ⟨disk, media, media', mem, mem', run⟩ :=
    firstRun (fun _ _ _ first => countingAct_okExec first) noCrash
  exact ⟨disk, media, media', mem, mem', run.fresh, run.fits, run.written,
    .head .close run.reopened, writtenLog_samplePath, store_refines_append_log run.fresh run.fits⟩

/-- After the object id counter has come round, the size of an object is not that of the log. -/
theorem reused_id_loses_write : ¬ ∀ disk, FreshDevice disk → RefinesLog answeredAct disk := by
  intro claim
  obtain ⟨disk, media, mem, log, fresh, run, reused⟩ := id_reused noCrash
  obtain ⟨-, sizes, -⟩ := claim disk fresh media mem log run
  have size := sizes samplePath
  have bound : media.view.lookup (.path samplePath) = some (Packed.u64.bytes 1) := reused.bound
  have attrs : media.view.lookup (.attrs 1) = _ := reused.attrs
  have written : log samplePath = some [[0]] := reused.written
  rw [stat, Log.size, written, lookupAttrs, bound, decodePathGet, Packed.ofBytes?_bytes] at size
  simp only [attrs, decodeAttrsGet, Packed.ofBytes?_bytes] at size
  exact absurd size (by decide)

end MiniFs.ObjStore
