import Mathlib.Order.Basic

/-!
# First-fit search for a run of free cells

The search walks the cells once, keeping the start and the length of the free run it is in.  It
returns the least start of a long enough run, and fails only where there is none.
-/

/-- The `n` cells from `start` on are all free. -/
def FreeRun (used : Nat → Bool) (n start : Nat) : Prop :=
  ∀ offset < n, used (start + offset) = false

/-- Walk `remaining` cells from `cell` on, inside a free run of `runLen` cells from `runStart`. -/
def searchRun (used : Nat → Bool) (n : Nat) : Nat → Nat → Nat → Nat → Option Nat
  | 0, _, _, _ => none
  | remaining + 1, cell, runStart, runLen =>
      if used cell then
        searchRun used n remaining (cell + 1) runStart 0
      else
        let start := if runLen = 0 then cell else runStart
        if runLen + 1 = n then some start
        else searchRun used n remaining (cell + 1) start (runLen + 1)

/-- The least start below `total` of a run of `n` free cells. -/
def firstRun (used : Nat → Bool) (n total : Nat) : Option Nat :=
  searchRun used n total 0 0 0

/-- What a search from the middle of the walk returns. -/
theorem searchRun_spec {used : Nat → Bool} {n total remaining cell runStart runLen : Nat}
    (walked : cell + remaining = total) (short : runLen < n)
    (start_eq : 0 < runLen → runStart + runLen = cell)
    (free : ∀ index, runStart ≤ index → index < cell → 0 < runLen → used index = false)
    (blocked : ∀ start, start + runLen < cell → ¬ FreeRun used n start) :
    match searchRun used n remaining cell runStart runLen with
    | some start => FreeRun used n start ∧ start + n ≤ total ∧
        ∀ earlier < start, ¬ FreeRun used n earlier
    | none => ∀ start, start + n ≤ total → ¬ FreeRun used n start := by
  induction remaining generalizing cell runStart runLen with
  | zero =>
      intro start fits
      exact blocked start (by omega)
  | succ remaining ih =>
      simp only [searchRun]
      by_cases taken : used cell
      · rw [if_pos taken]
        refine ih (by omega) (by omega) (fun h => absurd h (by omega))
          (fun _ _ _ h => absurd h (by omega)) ?_
        intro start below run
        by_cases reaches : start + runLen < cell
        · exact blocked start reaches run
        · -- the run would have to pass over the used cell
          have hit := run (cell - start) (by omega)
          rw [show start + (cell - start) = cell by omega, taken] at hit
          contradiction
      · rw [if_neg taken]
        have cellFree : used cell = false := by simpa using taken
        have startEq : (if runLen = 0 then cell else runStart) + runLen = cell := by
          split_ifs with fresh
          · omega
          · exact start_eq (by omega)
        generalize (if runLen = 0 then cell else runStart) = start at startEq
        have runFree : ∀ index, start ≤ index → index < cell + 1 → used index = false := by
          intro index low high
          by_cases last : index = cell
          · exact last ▸ cellFree
          · by_cases fresh : runLen = 0
            · omega
            · have := start_eq (by omega)
              exact free index (by omega) (by omega) (by omega)
        by_cases full : runLen + 1 = n
        · rw [if_pos full]
          refine ⟨fun offset inside => runFree _ (by omega) (by omega), by omega, ?_⟩
          intro earlier before
          exact blocked earlier (by omega)
        · rw [if_neg full]
          refine ih (by omega) (by omega) (fun _ => by omega)
            (fun index low high _ => runFree index low high) ?_
          intro earlier before
          exact blocked earlier (by omega)

/-- A found run is free, in range, and the first one. -/
theorem firstRun_eq_some {used : Nat → Bool} {n total start : Nat} (positive : 0 < n)
    (found : firstRun used n total = some start) :
    FreeRun used n start ∧ start + n ≤ total ∧ ∀ earlier < start, ¬ FreeRun used n earlier := by
  have spec := @searchRun_spec used n total total 0 0 0 (by omega) positive (by omega) (by omega)
    (by omega)
  rw [firstRun] at found
  simpa only [found] using spec

/-- The search fails only where no run fits. -/
theorem firstRun_eq_none {used : Nat → Bool} {n total : Nat} (positive : 0 < n)
    (missing : firstRun used n total = none) :
    ∀ start, start + n ≤ total → ¬ FreeRun used n start := by
  have spec := @searchRun_spec used n total total 0 0 0 (by omega) positive (by omega) (by omega)
    (by omega)
  rw [firstRun] at missing
  simpa only [missing] using spec

theorem freeRun_one {used : Nat → Bool} {start : Nat} (free : used start = false) :
    FreeRun used 1 start := by
  intro offset below
  obtain rfl : offset = 0 := by omega
  exact free

/-- Where a run is free, the search finds one that does not start behind it. -/
theorem firstRun_before {used : Nat → Bool} {n total run : Nat} (positive : 0 < n)
    (free : FreeRun used n run) (fits : run + n ≤ total) :
    ∃ start ≤ run, firstRun used n total = some start := by
  cases found : firstRun used n total with
  | none => exact absurd free (firstRun_eq_none positive found run fits)
  | some start =>
      obtain ⟨-, -, least⟩ := firstRun_eq_some positive found
      refine ⟨start, ?_, rfl⟩
      by_contra past
      exact least run (Nat.lt_of_not_le past) free

/-- A run before which no run fits is the one found. -/
theorem firstRun_eq_of_least {used : Nat → Bool} {n total start : Nat} (positive : 0 < n)
    (free : FreeRun used n start) (fits : start + n ≤ total)
    (least : ∀ earlier < start, ¬ FreeRun used n earlier) :
    firstRun used n total = some start := by
  cases found : firstRun used n total with
  | none => exact absurd free (firstRun_eq_none positive found start fits)
  | some other =>
      obtain ⟨otherFree, _, otherLeast⟩ := firstRun_eq_some positive found
      rcases Nat.lt_trichotomy other start with less | same | more
      · exact absurd otherFree (least other less)
      · rw [same]
      · exact absurd free (otherLeast start more)
