import MiniFs.ObjStore.OpenChunk

/-!
# An object id handed out twice

The object id counter has 64 bits and is advanced by every create, also by one that fails.  After
`2 ^ 64 - 1` creates that fail, the next create takes the id of the first object: the two paths
share one object from then on.
-/

namespace MiniFs.ObjStore

/-- The path `/a/b/c/e`. -/
def otherPath : ByteString := [47, 97, 47, 98, 47, 99, 47, 101]

/-- The memory after ids have been taken. -/
def StoreMem.advanced (mem : StoreMem) (ids : Nat) : StoreMem :=
  { mem with nextObjectId := mem.nextObjectId + UInt64.ofNat ids }

section Create

variable {crash : Media → Media → Prop} {mem : StoreMem} {media : Media} {log : Log}
  {path : ByteString}

/-- A create whose put of the counter fails. -/
theorem create_advances (valid : validateObjectPath path = true)
    (free : media.view.lookup (.path path) = none) :
    SystemReaches (fun _ => answeredAct) crash ⟨media, .idle mem, log⟩
      ⟨media, .idle (mem.advanced 1), log⟩ := by
  have get : answeredAct media (.get (.path path)) (.ok none) media :=
    ⟨⟨⟨.ok, fun _ => zeroBlock⟩, Prod.ext (congrArg Except.ok free) rfl⟩, by simp [PrimOp.Answered]⟩
  have reach : Prog.Reaches answeredAct ((create path 0).refine storeSem mem, media)
      (.ret (.error .ERROR_METADATA, mem.advanced 1), media) := by
    rw [create, valid, if_neg (by decide)]
    exact .head (.call get) (.head (.call (answeredAct_write false true _)) .refl)
  exact @SystemReaches.call (fun _ => answeredAct) crash _ _ log (.create path 0) _ _ _ reach

theorem creates_advance (valid : validateObjectPath path = true)
    (free : media.view.lookup (.path path) = none) (ids : Nat) :
    SystemReaches (fun _ => answeredAct) crash ⟨media, .idle mem, log⟩
      ⟨media, .idle (mem.advanced ids), log⟩ := by
  induction ids with
  | zero =>
      have same : mem.advanced 0 = mem := by
        rw [StoreMem.advanced, show UInt64.ofNat 0 = 0 from rfl, UInt64.add_zero]
      rw [same]
      exact .refl
  | succ ids ih =>
      have next : (mem.advanced ids).advanced 1 = mem.advanced (ids + 1) := by
        simp only [StoreMem.advanced]
        rw [UInt64.ofNat_add, UInt64.add_assoc]
      rw [← next]
      exact ih.trans (create_advances valid free)

/-- A create that succeeds. -/
theorem create_reaches (valid : validateObjectPath path = true)
    (free : media.view.lookup (.path path) = none) :
    SystemReaches (fun _ => answeredAct) crash ⟨media, .idle mem, log⟩
      ⟨(media.commit true [.nextObj (mem.nextObjectId + 1)]).commit mem.syncMetadata
          [.attrs (newAttrs mem.nextObjectId 0), .path path mem.nextObjectId],
        .idle (mem.advanced 1), Function.update log path (some [])⟩ := by
  have get : okExec (.get (.path path)) media = (.ok none, media) :=
    Prod.ext (congrArg Except.ok free) rfl
  have ran : ((create path 0).refine storeSem mem).run okExec media =
      ((.ok (), mem.advanced 1), (media.commit true [.nextObj (mem.nextObjectId + 1)]).commit
        mem.syncMetadata [.attrs (newAttrs mem.nextObjectId 0), .path path mem.nextObjectId]) := by
    rw [create, valid, if_neg (by decide), Prog.refine_call]
    simp only [storeSem, Prog.run_bind, Prog.run_call, Prog.run_ret, get]
    rfl
  have reach :=
    Prog.reaches_run okExec answeredAct_okExec ((create path 0).refine storeSem mem) media
  rw [ran] at reach
  exact @SystemReaches.call (fun _ => answeredAct) crash _ _ log (.create path 0) _ _ _ reach

end Create

/-- Two paths share an object: the second create has reset its size, and the extent of the write to
the first path is still there. -/
structure Reused (s : System) : Prop where
  bound : s.media.view.lookup (.path samplePath) = some (Packed.u64.bytes 1)
  attrs : s.media.view.lookup (.attrs 1) = some (ObjectAttrs.layout.bytes (newAttrs 1 0))
  extent : ∃ start, s.media.view.extent? 1 0 = some (freshCarve 1 start 1 (by decide)).1.extent
  written : s.log samplePath = some [[0]]

/-- A store whose object id counter has come round. -/
theorem id_reused (crash : Media → Media → Prop) : ∃ disk media mem log, FreshDevice disk ∧
    SystemReaches (fun _ => answeredAct) crash (freshSystem disk) ⟨media, .idle mem, log⟩ ∧
      Reused ⟨media, .idle mem, log⟩ := by
  obtain ⟨disk, mount, start, base, mount₁, fresh, -, mounts, allocated, within⟩ :=
    plainDisk_first_chunk
  have reached := @firstAct_written (fun _ => answeredAct) crash disk base start mount mount₁
    (fun _ media op _ => answeredAct_okExec media op) mounts allocated within
  have second : (writtenMem mount₁ start).nextObjectId = 2 := rfl
  generalize writtenMem mount₁ start = mem at reached second
  have unbound : (writtenMedia disk base start).view.lookup (.path otherPath) = none := by
    rw [writtenMedia_path]
    rfl
  have advanced := @creates_advance crash mem (writtenMedia disk base start)
    writtenLog otherPath (by decide) unbound (2 ^ 64 - 1)
  have again := @create_reaches crash (mem.advanced (2 ^ 64 - 1)) (writtenMedia disk base start)
    writtenLog otherPath (by decide) unbound
  have first : (mem.advanced (2 ^ 64 - 1)).nextObjectId = 1 := by
    show mem.nextObjectId + _ = 1
    rw [second]
    decide
  rw [first] at again
  refine ⟨disk, _, _, _, fresh, (reached.trans advanced).trans again, ?_⟩
  refine ⟨?_, ?_, ⟨start, ?_⟩, ?_⟩
  · rw [Media.view_commit, Media.view_commit, Db.lookup_apply_of_not_mem (by
      simp [MetaPut.key, otherPath, samplePath]),
        Db.lookup_apply_of_not_mem (by simp [MetaPut.key]),
      writtenMedia_path]
    rfl
  · rw [Media.view_commit]
    exact @Db.lookup_apply_of_mem _ _ (.attrs (newAttrs 1 0)) (by simp) (by simp [MetaPut.key])
  · rw [Media.view_commit, Media.view_commit, Db.extent?_apply_other (by simp),
      Db.extent?_apply_other (by simp), writtenMedia_extent]
  · simp only
    rw [Function.update_of_ne (show samplePath ≠ otherPath by decide), writtenLog_samplePath]

end MiniFs.ObjStore
