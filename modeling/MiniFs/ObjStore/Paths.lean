import MiniFs.ObjStore.Common

/-!
# Object paths

The grammar of the paths that `validate_object_path` accepts: four components, each after a slash.
The loop of the validator counts components without keeping them; here it is related to the
components themselves.
-/

namespace MiniFs.ObjStore

/-- A component: not empty, and without a slash. -/
@[ext]
structure PathComponent where
  bytes : ByteString
  nonempty : bytes ≠ []
  noSlash : 47 ∉ bytes

/-- The components of `/<tenant>/<sub>/<ds>/<oid>`. -/
structure ObjectPath where
  tenant : PathComponent
  sub : PathComponent
  ds : PathComponent
  oid : PathComponent

/-- The components in order. -/
def ObjectPath.components (p : ObjectPath) : List ByteString :=
  [p.tenant.bytes, p.sub.bytes, p.ds.bytes, p.oid.bytes]

/-- The path as a string. -/
def ObjectPath.string (p : ObjectPath) : ByteString :=
  47 :: p.tenant.bytes ++ 47 :: p.sub.bytes ++ 47 :: p.ds.bytes ++ 47 :: p.oid.bytes

/-- Components, each after a slash. -/
def slashed (components : List ByteString) : ByteString := components.flatMap fun c => 47 :: c

/-- What the component loop counts: the end of the component under the cursor, and the ones after
it.  The one under the cursor is not empty if it has begun before or has a byte left. -/
theorem countComponents_eq_some_iff {rest : ByteString} {current count total : Nat} :
    countComponents rest current count = some total ↔
      ∃ first others, 47 ∉ first ∧ 0 < current + first.length ∧
        (∀ c ∈ others, c ≠ [] ∧ 47 ∉ c) ∧ rest = first ++ slashed others ∧
        total = count + 1 + others.length := by
  induction rest generalizing current count with
  | nil =>
      rw [countComponents]
      constructor
      · intro counted
        split_ifs at counted with empty
        refine ⟨[], [], by simp, by simp; omega, by simp, rfl, ?_⟩
        simpa using (Option.some.inj counted).symm
      · rintro ⟨first, others, -, begun, -, ends, total⟩
        obtain ⟨rfl, none⟩ := List.append_eq_nil_iff.mp ends.symm
        obtain rfl : others = [] := by
          cases others with
          | nil => rfl
          | cons c others => simp [slashed] at none
        rw [List.length_nil, Nat.add_zero] at begun
        rw [if_neg (by omega), total, List.length_nil, Nat.add_zero]
  | cons byte rest ih =>
      rw [countComponents]
      by_cases slash : byte = 47
      · subst slash
        rw [if_pos rfl]
        by_cases empty : current = 0
        · rw [if_pos empty]
          refine iff_of_false (by simp) ?_
          rintro ⟨first, others, noSlash, begun, -, ends, -⟩
          cases first with
          | nil => simp [empty] at begun
          | cons first rest' =>
              simp only [List.cons_append, List.cons.injEq] at ends
              exact noSlash (ends.1 ▸ List.mem_cons_self)
        · rw [if_neg empty, ih]
          constructor
          · rintro ⟨first, others, noSlash, begun, all, rfl, rfl⟩
            refine ⟨[], first :: others, by simp, by omega, ?_, by simp [slashed], by simp; omega⟩
            intro c member
            rcases List.mem_cons.mp member with rfl | member
            · exact ⟨List.ne_nil_of_length_pos (by omega), noSlash⟩
            · exact all c member
          · rintro ⟨first, others, noSlash, -, all, ends, rfl⟩
            cases first with
            | cons first rest' =>
                simp only [List.cons_append, List.cons.injEq] at ends
                exact absurd (ends.1 ▸ List.mem_cons_self) noSlash
            | nil =>
                cases others with
                | nil => simp [slashed] at ends
                | cons c others =>
                    obtain ⟨nonempty, noSlash'⟩ := all c List.mem_cons_self
                    refine ⟨c, others, noSlash', ?_, fun c' member =>
                      all c' (List.mem_cons_of_mem _ member), ?_, ?_⟩
                    · rw [Nat.zero_add]
                      exact List.length_pos_iff.mpr nonempty
                    · simpa [slashed] using ends
                    · simp
                      omega
      · rw [if_neg slash, ih]
        constructor
        · rintro ⟨first, others, noSlash, -, all, rfl, rfl⟩
          refine ⟨byte :: first, others, ?_, by simp, all, rfl, rfl⟩
          rw [List.mem_cons, not_or]
          exact ⟨Ne.symm slash, noSlash⟩
        · rintro ⟨first, others, noSlash, -, all, ends, rfl⟩
          cases first with
          | nil =>
              cases others with
              | nil => simp [slashed] at ends
              | cons c others =>
                  simp only [slashed, List.nil_append, List.flatMap_cons, List.cons_append,
                    List.cons.injEq] at ends
                  exact absurd ends.1 slash
          | cons first rest' =>
              simp only [List.cons_append, List.cons.injEq] at ends
              rw [List.mem_cons, not_or] at noSlash
              exact ⟨rest', others, noSlash.2, by omega, all, ends.2, rfl⟩

theorem ObjectPath.string_eq (p : ObjectPath) :
    p.string = 47 :: (p.tenant.bytes ++ slashed [p.sub.bytes, p.ds.bytes, p.oid.bytes]) := by
  simp [string, slashed]

/-- The string of four components is long enough for the first check. -/
theorem ObjectPath.string_length (p : ObjectPath) : 5 ≤ p.string.length := by
  have first := List.length_pos_iff.mpr p.tenant.nonempty
  rw [string]
  simp only [List.length_append, List.length_cons]
  omega

theorem validateObjectPath_iff_exists {path : ByteString} :
    validateObjectPath path = true ↔ ∃ p : ObjectPath, p.string = path := by
  rw [validateObjectPath]
  constructor
  · intro accepted
    split_ifs at accepted with short head
    rw [not_ne_iff] at head
    cases path with
    | nil => simp at head
    | cons byte rest =>
        obtain rfl : byte = 47 := by simpa using head
        obtain ⟨first, others, noSlash, begun, all, ends, four⟩ :=
          countComponents_eq_some_iff.mp (of_decide_eq_true accepted)
        obtain ⟨sub, ds, oid, rfl⟩ := List.length_eq_three.mp (show others.length = 3 by omega)
        obtain ⟨nonempty₁, noSlash₁⟩ := all sub (by simp)
        obtain ⟨nonempty₂, noSlash₂⟩ := all ds (by simp)
        obtain ⟨nonempty₃, noSlash₃⟩ := all oid (by simp)
        refine ⟨⟨⟨first, List.ne_nil_of_length_pos (by omega), noSlash⟩, ⟨sub, nonempty₁, noSlash₁⟩,
          ⟨ds, nonempty₂, noSlash₂⟩, ⟨oid, nonempty₃, noSlash₃⟩⟩, ?_⟩
        rw [ObjectPath.string_eq, ← ends, List.tail_cons]
  · rintro ⟨p, rfl⟩
    rw [if_neg (by have := p.string_length; omega), if_neg (by simp [ObjectPath.string])]
    apply decide_eq_true
    refine countComponents_eq_some_iff.mpr ⟨p.tenant.bytes, [p.sub.bytes, p.ds.bytes, p.oid.bytes],
      p.tenant.noSlash, ?_, ?_, ?_, rfl⟩
    · rw [Nat.zero_add]
      exact List.length_pos_iff.mpr p.tenant.nonempty
    · intro c member
      simp only [List.mem_cons, List.not_mem_nil, or_false] at member
      rcases member with rfl | rfl | rfl
      · exact ⟨p.sub.nonempty, p.sub.noSlash⟩
      · exact ⟨p.ds.nonempty, p.ds.noSlash⟩
      · exact ⟨p.oid.nonempty, p.oid.noSlash⟩
    · rw [ObjectPath.string_eq, List.tail_cons]

/-- Splitting a path at its slashes gives the components back. -/
theorem ObjectPath.splitOn_string (p : ObjectPath) : p.string.tail.splitOn 47 = p.components := by
  have joined : p.string.tail = [47].intercalate p.components := by
    simp [string, components, List.intercalate]
  rw [joined, List.splitOn_intercalate]
  · intro c member
    simp only [components, List.mem_cons, List.not_mem_nil, or_false] at member
    rcases member with rfl | rfl | rfl | rfl
    · exact p.tenant.noSlash
    · exact p.sub.noSlash
    · exact p.ds.noSlash
    · exact p.oid.noSlash
  · simp [components]

theorem ObjectPath.string_injective : Function.Injective ObjectPath.string := by
  intro p p' same
  have split := p.splitOn_string
  rw [same, p'.splitOn_string] at split
  simp only [components, List.cons.injEq, and_true] at split
  obtain ⟨tenant, sub, ds, oid⟩ := split
  cases p
  cases p'
  simp only [mk.injEq]
  exact ⟨PathComponent.ext tenant.symm, PathComponent.ext sub.symm, PathComponent.ext ds.symm,
    PathComponent.ext oid.symm⟩

/-- The validator accepts exactly the strings of four components, each string has its components
once, and paths have the same string and the same key exactly if they have the same components. -/
theorem validateObjectPath_grammar (path : ByteString) :
    (validateObjectPath path = true ↔ ∃! p : ObjectPath, p.string = path) ∧
    ∀ p p' : ObjectPath, (p.string = p'.string ↔ p.components = p'.components) ∧
      ((MetaKey.path p.string).encode = (MetaKey.path p'.string).encode ↔
        p.components = p'.components) := by
  have strings : ∀ p p' : ObjectPath, p.string = p'.string ↔ p.components = p'.components := by
    intro p p'
    constructor
    · intro same
      rw [ObjectPath.string_injective same]
    · intro same
      rw [← p.splitOn_string, ← p'.splitOn_string] at same
      have joined := congrArg [47].intercalate same
      simp only [List.intercalate_splitOn] at joined
      rw [show p.string = 47 :: p.string.tail from rfl, joined]
      rfl
  refine ⟨validateObjectPath_iff_exists.trans ⟨?_, ExistsUnique.exists⟩, fun p p' =>
    ⟨strings p p', ?_⟩⟩
  · rintro ⟨p, rfl⟩
    exact ⟨p, rfl, fun p' same => ObjectPath.string_injective same⟩
  · rw [MetaKey.encode_inj, MetaKey.path.injEq]
    exact strings p p'

end MiniFs.ObjStore
