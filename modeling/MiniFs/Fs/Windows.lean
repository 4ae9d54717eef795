import Mathlib.Data.Finset.Card
import Mathlib.Data.Fintype.Basic
import MiniFs.Fs.Overlap

/-!
# The windows of a write

Where a write has to allocate follows from its range and from the extents alone: a window begins at
each block of the range that neither an extent nor an earlier window covers.  A window is granted if
the table has a free slot and the bitmap a free run for it, after those of the windows before it.
-/

namespace MiniFs

/-- Runs of the given sizes, each the first one free next to those before it; the list ends at the
first size for which there is none. -/
def firstRuns (total : Nat) : (Nat → Bool) → List Nat → List Nat
  | _, [] => []
  | used, n :: sizes =>
      match firstRun used n total with
      | none => []
      | some start =>
          start :: firstRuns total
            (fun cell => decide (start ≤ cell ∧ cell < start + n) || used cell) sizes

/-- The uncovered blocks of the positions from `pos` to `finish`, in the windows that a write
allocates: first block and number of blocks. -/
def holeWindows (covered : Nat → Bool) (finish pos : Nat) : List (Nat × Nat) :=
  if finish ≤ pos then []
  else if covered (pos / 4096) then holeWindows covered finish ((pos / 4096 + 1) * 4096)
  else
    (pos / 4096, needBlks (finish - pos) (pos % 4096)) ::
      holeWindows covered finish ((pos / 4096 + needBlks (finish - pos) (pos % 4096)) * 4096)
termination_by finish - pos
decreasing_by
  · omega
  · have := (needBlks_bounds (finish - pos) (pos % 4096)).1
    omega

namespace NebulaInode

/-- Free entries of the extent map. -/
def freeSlots (inode : NebulaInode) : Nat :=
  (Finset.univ.filter fun index => (inode.extents index).sizeBlocks = 0).card

/-- The windows of a write of `len` bytes at `offset`. -/
def windows (inode : NebulaInode) (offset len : Nat) : List (Nat × Nat) :=
  holeWindows inode.maps (offset + len) offset

end NebulaInode

/-- The runs that the windows of a write are granted: as many as there are free slots, and free
runs. -/
def NebulaInode.granted (inode : NebulaInode) (capacity : Nat) (used : Nat → Bool)
    (offset len : Nat) : List Nat :=
  (firstRuns capacity used ((inode.windows offset len).map Prod.snd)).take inode.freeSlots

section Windows

variable {covered : Nat → Bool} {finish pos : Nat}

theorem holeWindows_done (done : finish ≤ pos) : holeWindows covered finish pos = [] := by
  rw [holeWindows, if_pos done]

theorem holeWindows_covered (here : covered (pos / 4096) = true) :
    holeWindows covered finish pos = holeWindows covered finish ((pos / 4096 + 1) * 4096) := by
  rw [holeWindows]
  split_ifs with done
  · rw [holeWindows_done (by omega)]
  · rfl

theorem holeWindows_hole (more : pos < finish) (hole : covered (pos / 4096) = false) :
    holeWindows covered finish pos =
      (pos / 4096, needBlks (finish - pos) (pos % 4096)) ::
        holeWindows covered finish
          ((pos / 4096 + needBlks (finish - pos) (pos % 4096)) * 4096) := by
  rw [holeWindows, if_neg (by omega), if_neg (by rw [hole]; decide)]

/-- Windows lie in the range. -/
theorem holeWindows_inside {window : Nat × Nat} (member : window ∈ holeWindows covered finish pos) :
    pos / 4096 ≤ window.1 ∧ window.1 * 4096 < finish ∧ pos < finish := by
  induction pos using holeWindows.induct covered finish with
  | case1 pos done =>
      rw [holeWindows_done done] at member
      contradiction
  | case2 pos more here ih =>
      rw [holeWindows_covered here] at member
      have later := ih member
      omega
  | case3 pos more hole ih =>
      rw [holeWindows_hole (by omega) (by simpa using hole)] at member
      rcases List.mem_cons.mp member with rfl | later
      · exact ⟨le_rfl, by simp only; omega, by omega⟩
      · have := ih later
        omega

/-- The windows from a block on start at it or later. -/
theorem holeWindows_from {blk : Nat} {window : Nat × Nat}
    (member : window ∈ holeWindows covered finish (blk * 4096)) : blk ≤ window.1 := by
  have low := (holeWindows_inside member).1
  rwa [Nat.mul_div_cancel _ (by decide)] at low

/-- Windows are in order, and apart. -/
theorem holeWindows_ordered (covered : Nat → Bool) (finish pos : Nat) :
    (holeWindows covered finish pos).Pairwise fun first second =>
      first.1 + first.2 ≤ second.1 := by
  induction pos using holeWindows.induct covered finish with
  | case1 pos done =>
      rw [holeWindows_done done]
      exact List.Pairwise.nil
  | case2 pos more here ih =>
      rw [holeWindows_covered here]
      exact ih
  | case3 pos more hole ih =>
      rw [holeWindows_hole (by omega) (by simpa using hole)]
      refine List.Pairwise.cons (fun later member => ?_) ih
      have := (holeWindows_inside member).1
      simp only
      omega

/-- Only the blocks from the position on matter. -/
theorem holeWindows_congr {covered' : Nat → Bool}
    (same : ∀ blk, pos / 4096 ≤ blk → covered' blk = covered blk) :
    holeWindows covered' finish pos = holeWindows covered finish pos := by
  induction pos using holeWindows.induct covered finish with
  | case1 pos done => rw [holeWindows_done done, holeWindows_done done]
  | case2 pos more here ih =>
      rw [holeWindows_covered here, holeWindows_covered (by rw [same _ le_rfl, here])]
      exact ih fun blk later => same blk (by omega)
  | case3 pos more hole ih =>
      have clear : covered (pos / 4096) = false := by simpa using hole
      rw [holeWindows_hole (by omega) clear,
        holeWindows_hole (by omega) (by rw [same _ le_rfl, clear]),
        ih fun blk later => same blk (by omega)]

/-- A covered stretch is passed over. -/
theorem holeWindows_skip {blk : Nat} (count : Nat)
    (stretch : ∀ other, blk ≤ other → other < blk + count → covered other = true) :
    holeWindows covered finish (blk * 4096) =
      holeWindows covered finish ((blk + count) * 4096) := by
  induction count with
  | zero => rfl
  | succ count ih =>
      have here : covered ((blk + count) * 4096 / 4096) = true := by
        rw [Nat.mul_div_cancel _ (by decide)]
        exact stretch _ (by omega) (by omega)
      rw [ih fun other low high => stretch other low (by omega), holeWindows_covered here,
        Nat.mul_div_cancel _ (by decide), Nat.add_assoc]

/-- A part that ends at the end of its block or of the range. -/
theorem holeWindows_next (more : pos < finish) :
    holeWindows covered finish (pos + blockPart pos (finish - pos)) =
      holeWindows covered finish ((pos / 4096 + 1) * 4096) := by
  rw [blockPart]
  by_cases within : finish ≤ (pos / 4096 + 1) * 4096
  · rw [holeWindows_done (by omega), holeWindows_done within]
  · congr 1
    omega

end Windows

namespace NebulaInode

variable {inode after : NebulaInode} {blk n lba : Nat}

theorem maps_eq (inode : NebulaInode) (blk : Nat) :
    inode.maps blk = (inode.blockOf blk).isSome := by
  rw [maps, blockOf, Option.isSome_map]

theorem Appended.maps (appended : inode.Appended blk n lba after) (other : Nat) :
    after.maps other = (inode.maps other || decide (blk ≤ other ∧ other < blk + n)) := by
  rw [maps_eq, maps_eq, appended.blockOf, Option.isSome_or]
  split_ifs with inside <;> simp [inside]

theorem extentAppend_eq_none_iff_slots :
    extentAppend inode blk n lba = none ↔ inode.freeSlots = 0 := by
  rw [extentAppend_eq_none, freeSlots, Finset.card_eq_zero, Finset.filter_eq_empty_iff]
  simp

theorem freeSlots_append (positive : 0 < n) (few : n < 2 ^ 24)
    (appended : extentAppend inode blk n lba = some after) :
    inode.freeSlots = after.freeSlots + 1 := by
  obtain ⟨here, empty, -, rfl⟩ := extentAppend_eq_some appended
  have member : here ∈ Finset.univ.filter fun index => (inode.extents index).sizeBlocks = 0 := by
    simpa using empty
  have rest : (Finset.univ.filter fun index =>
      (Function.update inode.extents here (.for blk n lba) index).sizeBlocks = 0) =
        (Finset.univ.filter fun index => (inode.extents index).sizeBlocks = 0).erase here := by
    ext index
    by_cases same : index = here
    · subst same
      simp only [Finset.mem_filter, Finset.mem_univ, true_and, Function.update_self,
        ExtentMapEntry.sizeBlocks_for few, Finset.mem_erase]
      omega
    · simp [same]
  rw [freeSlots, freeSlots, rest, Finset.card_erase_add_one member]

/-- A round on a block with an extent leaves the windows. -/
theorem windows_covered {curOff left : Nat} (here : inode.maps (curOff / 4096) = true)
    (more : 0 < left) :
    inode.windows (curOff + blockPart curOff left) (left - blockPart curOff left) =
      inode.windows curOff left := by
  obtain ⟨-, fewer, -⟩ := @blockPart_bounds curOff left more
  have next := @holeWindows_next inode.maps (curOff + left) curOff (by omega)
  rw [Nat.add_sub_cancel_left] at next
  rw [windows, windows, Nat.add_assoc, Nat.add_sub_cancel' fewer, next, holeWindows_covered here]

/-- After the first window of a write is mapped the rest of the write has the other windows. -/
theorem Appended.windows {curOff left : Nat} (positive : 0 < n)
    (appended : inode.Appended (curOff / 4096) n lba after) (more : 0 < left) :
    after.windows (curOff + blockPart curOff left) (left - blockPart curOff left) =
      holeWindows inode.maps (curOff + left) ((curOff / 4096 + n) * 4096) := by
  obtain ⟨-, fewer, -⟩ := @blockPart_bounds curOff left more
  have next := @holeWindows_next after.maps (curOff + left) curOff (by omega)
  rw [Nat.add_sub_cancel_left] at next
  have skip := @holeWindows_skip after.maps (curOff + left) (curOff / 4096 + 1) (n - 1)
    fun other low high => by
      rw [appended.maps, decide_eq_true ⟨by omega, by omega⟩, Bool.or_true]
  rw [show curOff / 4096 + 1 + (n - 1) = curOff / 4096 + n by omega] at skip
  rw [NebulaInode.windows, Nat.add_assoc, Nat.add_sub_cancel' fewer, next, skip]
  apply holeWindows_congr
  intro other later
  rw [Nat.mul_div_cancel _ (by decide)] at later
  rw [appended.maps, decide_eq_false (by omega), Bool.or_false]

end NebulaInode

/-- Where a write of `len` bytes at `offset` stops: at the first window without a run. -/
def writeStop (offset len : Nat) (windows : List (Nat × Nat)) (granted : List Nat) : Nat :=
  match windows[granted.length]? with
  | none => offset + len
  | some window => max offset (window.1 * 4096)

/-- The block gets a device block with the run of its window. -/
def InWindows (windows : List (Nat × Nat)) (granted : List Nat) (blk lba : Nat) : Prop :=
  ∃ window start, (window, start) ∈ windows.zip granted ∧ window.1 ≤ blk ∧
    blk < window.1 + window.2 ∧ lba = start + (blk - window.1)

/-- A plan below the last 64-bit position stops where its windows say, and maps their blocks. -/
def PlanAgrees (inode : NebulaInode) (curOff left : Nat) (windows : List (Nat × Nat))
    (granted : List Nat) (plan : Nat × NebulaInode) : Prop :=
  curOff + plan.1 < 2 ^ 64 ∧ writeStop curOff left windows granted = curOff + plan.1 ∧
      (∀ blk lba, plan.2.blockOf blk = some lba ↔ inode.blockOf blk = some lba ∨
        inode.blockOf blk = none ∧ InWindows windows granted blk lba) ∨
    2 ^ 64 ≤ curOff + plan.1 ∧ 2 ^ 64 ≤ writeStop curOff left windows granted

section Agree

variable {inode after : NebulaInode} {curOff left part : Nat} {windows : List (Nat × Nat)}
  {granted : List Nat} {plan : Nat × NebulaInode}

theorem writeStop_ge (offset len : Nat) (windows : List (Nat × Nat)) (granted : List Nat) :
    offset ≤ writeStop offset len windows granted := by
  rw [writeStop]
  split
  · exact Nat.le_add_right _ _
  · exact Nat.le_max_left _ _

/-- A part before the windows does not move the end. -/
theorem writeStop_part (fewer : part ≤ left)
    (past : ∀ window ∈ windows, curOff + part ≤ window.1 * 4096) :
    writeStop (curOff + part) (left - part) windows granted =
      writeStop curOff left windows granted := by
  rw [writeStop, writeStop]
  cases reached : windows[granted.length]? with
  | none =>
      simp only
      omega
  | some window =>
      have := past window (List.mem_of_getElem? reached)
      simp only
      omega

/-- Where all windows have their runs, everything is written. -/
theorem writeStop_all {offset len n : Nat}
    (stop : writeStop offset len windows granted = offset + n)
    (all : windows[granted.length]? = none) : n = len := by
  rw [writeStop, all] at stop
  simp only at stop
  omega

/-- Where a window of the range has no run, the write stops at it. -/
theorem writeStop_short {offset len n : Nat} {window : Nat × Nat}
    (stop : writeStop offset len windows granted = offset + n)
    (reached : windows[granted.length]? = some window) (low : window.1 * 4096 < offset + len)
    (more : offset < offset + len) : n = window.1 * 4096 - offset ∧ n ≠ len := by
  rw [writeStop, reached] at stop
  simp only at stop
  omega

theorem inWindows_nil_right (windows : List (Nat × Nat)) (blk lba : Nat) :
    ¬ InWindows windows [] blk lba := by
  rintro ⟨window, start, member, -⟩
  rw [List.zip_nil_right] at member
  contradiction

theorem inWindows_cons {window : Nat × Nat} {start blk lba : Nat} :
    InWindows (window :: windows) (start :: granted) blk lba ↔
      window.1 ≤ blk ∧ blk < window.1 + window.2 ∧ lba = start + (blk - window.1) ∨
        InWindows windows granted blk lba := by
  constructor
  · rintro ⟨other, run, member, inside⟩
    rcases List.mem_cons.mp member with same | later
    · obtain ⟨rfl, rfl⟩ := Prod.mk.inj same
      exact .inl inside
    · exact .inr ⟨other, run, later, inside⟩
  · rintro (inside | ⟨other, run, later, inside⟩)
    · exact ⟨window, start, List.mem_cons_self, inside⟩
    · exact ⟨other, run, List.mem_cons_of_mem _ later, inside⟩

/-- Granted windows lie in the range, before the first one without a run. -/
theorem inWindows_bounds {inode : NebulaInode} {offset len blk lba : Nat}
    (mapped : InWindows (inode.windows offset len) granted blk lba) :
    offset / 4096 ≤ blk ∧ ∀ window, (inode.windows offset len)[granted.length]? = some window →
      blk < window.1 := by
  obtain ⟨first, start, member, low, high, -⟩ := mapped
  refine ⟨(holeWindows_inside (List.of_mem_zip member).1).1.trans low, fun window reached => ?_⟩
  obtain ⟨index, here⟩ := List.mem_iff_getElem?.mp member
  obtain ⟨before, run⟩ := List.getElem?_zip_eq_some.mp here
  obtain ⟨inside, rfl⟩ := List.getElem?_eq_some_iff.mp before
  obtain ⟨few, -⟩ := List.getElem?_eq_some_iff.mp run
  obtain ⟨inside', rfl⟩ := List.getElem?_eq_some_iff.mp reached
  have ordered := List.pairwise_iff_getElem.mp
    (holeWindows_ordered inode.maps (offset + len) offset) index granted.length inside inside' few
  exact high.trans_le ordered

/-- Nothing is planned where the first window is at the position and gets no run, or where there is
none left. -/
theorem PlanAgrees.stays (here : writeStop curOff left windows [] = curOff) :
    PlanAgrees inode curOff left windows [] (0, inode) := by
  rcases Nat.lt_or_ge curOff (2 ^ 64) with low | high
  · refine .inl ⟨low, here, fun blk lba => ?_⟩
    simp only [inWindows_nil_right, and_false, or_false]
  · exact .inr ⟨high, by rw [here]; exact high⟩

theorem PlanAgrees.passed (high : 2 ^ 64 ≤ curOff) :
    PlanAgrees inode curOff left windows granted plan :=
  .inr ⟨by omega, high.trans (writeStop_ge _ _ _ _)⟩

/-- A round on a block with an extent. -/
theorem PlanAgrees.round (fewer : part ≤ left)
    (past : ∀ window ∈ windows, curOff + part ≤ window.1 * 4096)
    (rest : PlanAgrees inode (curOff + part) (left - part) windows granted plan) :
    PlanAgrees inode curOff left windows granted (part + plan.1, plan.2) := by
  rw [PlanAgrees, writeStop_part fewer past, Nat.add_assoc] at rest
  exact rest

/-- A round that maps the first window. -/
theorem PlanAgrees.window {blk n start : Nat} (fewer : part ≤ left)
    (appended : inode.Appended blk n start after)
    (past : ∀ window ∈ windows, curOff + part ≤ window.1 * 4096)
    (apart : ∀ window ∈ windows, blk + n ≤ window.1)
    (rest : PlanAgrees after (curOff + part) (left - part) windows granted plan) :
    PlanAgrees inode curOff left ((blk, n) :: windows) (start :: granted)
      (part + plan.1, plan.2) := by
  have same : writeStop curOff left ((blk, n) :: windows) (start :: granted) =
      writeStop curOff left windows granted := by
    rw [writeStop, writeStop, List.length_cons, List.getElem?_cons_succ]
  rw [PlanAgrees, writeStop_part fewer past, Nat.add_assoc] at rest
  rw [PlanAgrees, same]
  refine rest.imp (fun ⟨low, stop, maps⟩ => ⟨low, stop, fun other lba => ?_⟩) id
  rw [maps, appended.blockOf, inWindows_cons]
  cases known : inode.blockOf other with
  | some lba' => simp
  | none =>
      by_cases inside : blk ≤ other ∧ other < blk + n
      · have later : ¬ InWindows windows granted other lba := by
          rintro ⟨window, run, member, low, -⟩
          have := apart window (List.of_mem_zip member).1
          omega
        simp [inside, later, eq_comm]
      · rw [if_neg inside]
        simp only [Option.none_or, reduceCtorEq, false_or, true_and]
        tauto

end Agree

theorem NebulaInode.windows_nothing (inode : NebulaInode) (curOff : Nat) :
    inode.windows curOff 0 = [] := holeWindows_done le_rfl

theorem NebulaInode.granted_nothing (inode : NebulaInode) (capacity : Nat) (used : Nat → Bool)
    (curOff : Nat) : inode.granted capacity used curOff 0 = [] := by
  rw [granted, windows_nothing]
  exact List.take_nil

/-- The plan of a write in terms of the range, the extents and the free blocks it starts from. -/
theorem writePlan_agrees {capacity fuel : Nat} {used : Nat → Bool} {inode : NebulaInode}
    {curOff left : Nat} (small : capacity ≤ 2 ^ 32) (mapped : inode.Mapped)
    (taken : ∀ lba, inode.Holds lba → used lba = true) (enough : left ≤ fuel) :
    PlanAgrees inode curOff left (inode.windows curOff left)
      (inode.granted capacity used curOff left)
      (writePlan capacity fuel used inode curOff left) := by
  induction fuel generalizing used inode curOff left with
  | zero =>
      obtain rfl : left = 0 := by omega
      rw [NebulaInode.windows_nothing, NebulaInode.granted_nothing]
      exact .stays rfl
  | succ fuel ih =>
      rw [writePlan]
      by_cases none : left = 0
      · rw [if_pos none, none, NebulaInode.windows_nothing, NebulaInode.granted_nothing]
        exact .stays rfl
      rw [if_neg none]
      have more : curOff < curOff + left := by omega
      obtain ⟨positive, fewer, fits⟩ := @blockPart_bounds curOff left (by omega)
      rcases Nat.lt_or_ge curOff (2 ^ 64) with low | high
      swap
      · exact .passed high
      have ordered := holeWindows_ordered inode.maps (curOff + left) curOff
      have next : curOff + blockPart curOff left ≤ (curOff / 4096 + 1) * 4096 := by omega
      simp only [planMap]
      cases known : extentFind inode (curOff / 4096) with
      | some index =>
          have covered : inode.maps (curOff / 4096) = true := by
            rw [NebulaInode.maps, known]
            rfl
          have rest := @ih used inode (curOff + blockPart curOff left)
            (left - blockPart curOff left) mapped taken (by omega)
          rw [NebulaInode.granted, NebulaInode.windows_covered covered (by omega),
            ← NebulaInode.granted] at rest
          refine rest.round fewer fun window member => ?_
          rw [NebulaInode.windows, holeWindows_covered covered] at member
          exact next.trans (Nat.mul_le_mul_right 4096 (holeWindows_from member))
      | none =>
          have hole : inode.maps (curOff / 4096) = false := by
            rw [NebulaInode.maps, known]
            rfl
          obtain ⟨some, few⟩ := needBlks_bounds left (curOff % 4096)
          have first := holeWindows_hole more hole
          rw [Nat.add_sub_cancel_left] at first
          rw [NebulaInode.granted, NebulaInode.windows, first]
          rw [first] at ordered
          generalize needBlks left (curOff % 4096) = need at *
          have here : ∀ tail, writeStop curOff left ((curOff / 4096, need) :: tail) [] =
              curOff := by
            intro tail
            simp only [writeStop, List.length_nil, List.getElem?_cons_zero]
            omega
          simp only [List.map_cons, firstRuns]
          cases found : firstRun used need capacity with
          | none =>
              rw [List.take_nil]
              exact .stays (here _)
          | some start =>
              simp only
              cases appended : extentAppend inode (curOff / 4096) need start with
              | none =>
                  rw [NebulaInode.extentAppend_eq_none_iff_slots.mp appended, List.take_zero]
                  exact .stays (here _)
              | some after =>
                  obtain ⟨free, fit, -⟩ := firstRun_eq_some some found
                  have added := mapped.append (show curOff / 4096 < 2 ^ 53 by omega)
                    (show need < 2 ^ 24 by omega) some (show start < 2 ^ 32 by omega)
                    (fun offset below holds => by
                      have used := taken _ holds
                      rw [free offset below] at used
                      contradiction) appended
                  have slots := NebulaInode.freeSlots_append some (by omega) appended
                  rw [slots, List.take_succ_cons]
                  have rest := @ih (fun block =>
                      decide (start ≤ block ∧ block < start + need) || used block) after
                    (curOff + blockPart curOff left) (left - blockPart curOff left) added.mapped
                    (fun lba holds => by
                      rcases (added.holds lba).mp holds with earlier | run
                      · rw [taken lba earlier, Bool.or_true]
                      · rw [decide_eq_true run, Bool.true_or]) (by omega)
                  rw [NebulaInode.granted, added.windows some (by omega)] at rest
                  refine rest.window fewer added (fun window member => ?_)
                    (List.pairwise_cons.mp ordered).1
                  have later := holeWindows_from member
                  exact next.trans (Nat.mul_le_mul_right 4096 (by omega))

end MiniFs
