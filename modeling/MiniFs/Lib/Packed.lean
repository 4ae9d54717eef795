import Mathlib.Algebra.BigOperators.Fin
import Mathlib.Logic.Equiv.Fin.Basic

/-!
# Packed records

A packed layout of a type is an equivalence with byte arrays of a fixed length, so a layout is a
total decoder and its inverse at once.  Layouts compose by juxtaposition, and numbers are laid out
least significant byte first.
-/

/-- Byte arrays of length `n`. -/
abbrev Bytes (n : Nat) : Type := Fin n → UInt8

/-- `α` laid out in `n` bytes. -/
abbrev Packed (α : Type) (n : Nat) : Type := α ≃ Bytes n

namespace Packed

/-- A byte as a number below 256. -/
def byteFin : UInt8 ≃ Fin 256 where
  toFun byte := byte.toFin
  invFun value := UInt8.ofFin value
  left_inv _ := rfl
  right_inv _ := rfl

/-- Numbers below `256 ^ n`, least significant byte first. -/
def littleEndian (n : Nat) : Packed (Fin (256 ^ n)) n :=
  finFunctionFinEquiv.symm.trans (Equiv.arrowCongr (Equiv.refl _) byteFin.symm)

/-- One byte. -/
def u8 : Packed UInt8 1 where
  toFun byte _ := byte
  invFun bytes := bytes 0
  left_inv _ := rfl
  right_inv bytes := by
    funext index
    rw [Subsingleton.elim index 0]

/-- A 16-bit number. -/
def u16 : Packed UInt16 2 :=
  Equiv.trans
    { toFun := UInt16.toFin, invFun := UInt16.ofFin, left_inv := fun _ => rfl
      right_inv := fun _ => rfl }
    (littleEndian 2)

/-- A 32-bit number. -/
def u32 : Packed UInt32 4 :=
  Equiv.trans
    { toFun := UInt32.toFin, invFun := UInt32.ofFin, left_inv := fun _ => rfl
      right_inv := fun _ => rfl }
    (littleEndian 4)

/-- A 64-bit number. -/
def u64 : Packed UInt64 8 :=
  Equiv.trans
    { toFun := UInt64.toFin, invFun := UInt64.ofFin, left_inv := fun _ => rfl
      right_inv := fun _ => rfl }
    (littleEndian 8)

/-- Raw bytes. -/
def raw (n : Nat) : Packed (Bytes n) n := Equiv.refl _

/-- Two records one after the other. -/
def pair {α β : Type} {m n : Nat} (first : Packed α m) (second : Packed β n) :
    Packed (α × β) (m + n) :=
  (Equiv.prodCongr first second).trans (Fin.appendEquiv m n)

/-- `k` records one after the other. -/
def array {α : Type} {n : Nat} (k : Nat) (element : Packed α n) : Packed (Fin k → α) (k * n) :=
  (Equiv.arrowCongr (Equiv.refl _) element).trans
    ((Equiv.curry (Fin k) (Fin n) UInt8).symm.trans
      (Equiv.arrowCongr finProdFinEquiv (Equiv.refl _)))

/-- A record type laid out as the tuple of its fields. -/
def record {α β : Type} {m : Nat} (n : Nat) (fields : α ≃ β) (layout : Packed β m)
    (size : m = n) : Packed α n :=
  fields.trans (layout.trans (Equiv.arrowCongr (finCongr size) (Equiv.refl _)))

/-- The bytes of a value as a list. -/
def bytes {α : Type} {n : Nat} (layout : Packed α n) (value : α) : List UInt8 :=
  List.ofFn (layout value)

/-- Decode a byte list of exactly the right length. -/
def ofBytes? {α : Type} {n : Nat} (layout : Packed α n) (list : List UInt8) : Option α :=
  if size : list.length = n then
    some (layout.symm fun index => list.get (index.cast size.symm))
  else none

@[simp] theorem length_bytes {α : Type} {n : Nat} (layout : Packed α n) (value : α) :
    (layout.bytes value).length = n := by
  simp [bytes]

@[simp] theorem ofBytes?_bytes {α : Type} {n : Nat} (layout : Packed α n) (value : α) :
    layout.ofBytes? (layout.bytes value) = some value := by
  simp only [ofBytes?, length_bytes, dif_pos, Option.some.injEq]
  rw [Equiv.symm_apply_eq]
  funext index
  simp only [bytes, List.get_ofFn]
  rfl

/-- The bytes of two records one after the other. -/
theorem bytes_pair {α β : Type} {m n : Nat} (first : Packed α m) (second : Packed β n) (a : α)
    (b : β) : (pair first second).bytes (a, b) = first.bytes a ++ second.bytes b := by
  simp only [bytes, pair, Equiv.trans_apply, Equiv.prodCongr_apply, Prod.map_apply]
  exact List.ofFn_fin_append (first a) (second b)

/-- The bytes of a record are those of the tuple of its fields. -/
theorem bytes_record {α β : Type} {m n : Nat} (fields : α ≃ β) (layout : Packed β m) (size : m = n)
    (value : α) : (record n fields layout size).bytes value = layout.bytes (fields value) := by
  subst size
  rfl

/-- Values with the same bytes are equal. -/
theorem bytes_injective {α : Type} {n : Nat} (layout : Packed α n) :
    Function.Injective layout.bytes :=
  fun _ _ same => layout.injective (List.ofFn_injective same)

/-- The value is laid out as zero bytes only. -/
def Zeroed {α : Type} {n : Nat} (layout : Packed α n) (value : α) : Prop :=
  ∀ index, layout value index = 0

theorem zeroed_raw (n : Nat) : (raw n).Zeroed fun _ => 0 := fun _ => rfl

theorem zeroed_littleEndian {n : Nat} {value : Fin (256 ^ n)} (zero : value.val = 0) :
    (littleEndian n).Zeroed value := by
  intro index
  have digit : finFunctionFinEquiv.symm value index = (0 : Fin 256) := by
    apply Fin.ext
    simp [finFunctionFinEquiv, zero]
  simp only [littleEndian, Equiv.trans_apply, Equiv.arrowCongr_apply, Function.comp_apply,
    Equiv.refl_symm, Equiv.refl_apply, digit]
  rfl

theorem zeroed_u16 : u16.Zeroed 0 := zeroed_littleEndian rfl

theorem zeroed_u32 : u32.Zeroed 0 := zeroed_littleEndian rfl

theorem zeroed_u64 : u64.Zeroed 0 := zeroed_littleEndian rfl

theorem Zeroed.pair {α β : Type} {m n : Nat} {first : Packed α m} {second : Packed β n} {a : α}
    {b : β} (zeroA : first.Zeroed a) (zeroB : second.Zeroed b) :
    (pair first second).Zeroed (a, b) := by
  intro index
  refine Fin.addCases (fun low => ?_) (fun high => ?_) index
  · exact (Fin.append_left (first a) (second b) low).trans (zeroA low)
  · exact (Fin.append_right (first a) (second b) high).trans (zeroB high)

theorem Zeroed.array {α : Type} {n : Nat} (k : Nat) {element : Packed α n} {a : α}
    (zero : element.Zeroed a) : (array k element).Zeroed fun _ => a := by
  intro index
  simpa [Packed.array] using zero _

theorem Zeroed.record {α β : Type} {m n : Nat} {fields : α ≃ β} {layout : Packed β m}
    {size : m = n} {value : α} (zero : layout.Zeroed (fields value)) :
    (record n fields layout size).Zeroed value := by
  intro index
  simpa [Packed.record] using zero _

/-- Zero bytes decode to the zeroed value. -/
theorem Zeroed.symm_zero {α : Type} {n : Nat} {layout : Packed α n} {value : α}
    (zero : layout.Zeroed value) : layout.symm (fun _ => 0) = value := by
  rw [Equiv.symm_apply_eq]
  exact (funext zero).symm

end Packed
