import Mathlib.Logic.Basic

/-!
# Copying ranges between arrays

`copyRange` overwrites a range of one array with a range of another.  A transfer in pieces is a
transfer of the whole, a transfer over a damaged range repairs it, and a transfer through a bounce
buffer is a direct one.
-/

namespace MiniFs.Lib

variable {α : Type*}

/-- Overwrite `len` cells of `dst` from `at_` on with the cells of `src` from `start` on. -/
def copyRange (dst src : Nat → α) (at_ start len : Nat) : Nat → α := fun i =>
  if at_ ≤ i ∧ i < at_ + len then src (start + (i - at_)) else dst i

variable {dst src damage bounce : Nat → α} {at_ start len more : Nat}

@[simp] theorem copyRange_zero : copyRange dst src at_ start 0 = dst := by
  funext i
  rw [copyRange, if_neg (by omega)]

theorem copyRange_outside {i : Nat} (outside : i < at_ ∨ at_ + len ≤ i) :
    copyRange dst src at_ start len i = dst i := by
  rw [copyRange, if_neg (by omega)]

theorem copyRange_append :
    copyRange (copyRange dst src at_ start len) src (at_ + len) (start + len) more =
      copyRange dst src at_ start (len + more) := by
  funext i
  simp only [copyRange]
  by_cases second : at_ + len ≤ i ∧ i < at_ + len + more
  · rw [if_pos second, if_pos (by omega), show start + len + (i - (at_ + len)) =
      start + (i - at_) by
      omega]
  · rw [if_neg second]
    by_cases first : at_ ≤ i ∧ i < at_ + len
    · rw [if_pos first, if_pos (by omega)]
    · rw [if_neg first, if_neg (by omega)]

theorem copyRange_repairs {start' : Nat} :
    copyRange (copyRange dst damage at_ start' len) src at_ start len =
      copyRange dst src at_ start len := by
  funext i
  simp only [copyRange]
  by_cases inside : at_ ≤ i ∧ i < at_ + len
  · rw [if_pos inside, if_pos inside]
  · rw [if_neg inside, if_neg inside, if_neg inside]

theorem copyRange_through :
    copyRange dst (copyRange bounce src 0 start len) at_ 0 len =
      copyRange dst src at_ start len := by
  funext i
  simp only [copyRange]
  by_cases inside : at_ ≤ i ∧ i < at_ + len
  · rw [if_pos inside, if_pos inside, if_pos (by omega), show 0 + (i - at_) - 0 = i - at_ by omega]
  · rw [if_neg inside, if_neg inside]

end MiniFs.Lib
