import MiniFs.Tools.Label

/-!
# Device identities as text

`nebula_label` reads an identity as 16 pairs of hexadecimal digits with dashes in front of the
pairs.  It does not look at what follows, and a dash inside a pair is an error.
-/

namespace MiniFs

/-- The characters that are no dashes. -/
def undashed (text : List UInt8) : List UInt8 := text.filter fun c => c ≠ 45

/-- The text has 32 hexadecimal digits and dashes only. -/
def IsUuidText (text : List UInt8) : Prop :=
  (undashed text).length = 32 ∧ ∀ c ∈ undashed text, (hexDigit c).isSome = true

/-- The values of pairs of digits. -/
def pairBytes : List UInt8 → List UInt8
  | hi :: lo :: rest =>
      (((hexDigit hi).getD 0 <<< 4) ||| (hexDigit lo).getD 0) :: pairBytes rest
  | _ => []

theorem length_pairBytes (digits : List UInt8) : (pairBytes digits).length = digits.length / 2 := by
  induction digits using pairBytes.induct with
  | case1 hi lo rest ih =>
      rw [pairBytes, List.length_cons, ih, List.length_cons, List.length_cons]
      omega
  | case2 digits short =>
      match digits, short with
      | [], _ => rfl
      | [c], _ => simp [pairBytes]
      | hi :: lo :: rest, short => exact absurd rfl (short hi lo rest)

/-- The text is read if it is one of an identity, and then to the values of its digits. -/
def UuidRead (text : List UInt8) : Prop :=
  ((parseUuid text).isSome = true ↔ IsUuidText text) ∧
    ∀ uuid, parseUuid text = some uuid → List.ofFn uuid = pairBytes (undashed text)

/-- `n` pairs of digits, with dashes in front of them. -/
inductive PairText : Nat → List UInt8 → Prop
  | nil : PairText 0 []
  | dash {n : Nat} {rest : List UInt8} (pairs : PairText (n + 1) rest) : PairText (n + 1)
      (45 :: rest)
  | pair {n : Nat} {hi lo : UInt8} {rest : List UInt8} (high : (hexDigit hi).isSome = true)
      (low : (hexDigit lo).isSome = true) (pairs : PairText n rest) :
      PairText (n + 1) (hi :: lo :: rest)

theorem hexDigit_dash : hexDigit 45 = none := by decide

theorem ne_dash {c : UInt8} (digit : (hexDigit c).isSome = true) : c ≠ 45 := by
  rintro rfl
  rw [hexDigit_dash] at digit
  contradiction

theorem undashed_dash (text : List UInt8) : undashed (45 :: text) = undashed text := rfl

theorem undashed_cons {c : UInt8} (other : c ≠ 45) (text : List UInt8) :
    undashed (c :: text) = c :: undashed text := by
  rw [undashed, List.filter_cons_of_pos (by simpa using other)]
  rfl

theorem undashed_append (first second : List UInt8) :
    undashed (first ++ second) = undashed first ++ undashed second := List.filter_append _ _

theorem undashed_eq_nil {text : List UInt8} : undashed text = [] ↔ ∀ c ∈ text, c = 45 := by
  simp [undashed, List.filter_eq_nil_iff]

namespace PairText

variable {n : Nat} {text : List UInt8}

theorem length_undashed (pairs : PairText n text) : (undashed text).length = 2 * n := by
  induction pairs with
  | nil => rfl
  | dash pairs ih => rwa [undashed_dash]
  | pair high low pairs ih =>
      rw [undashed_cons (ne_dash high), undashed_cons (ne_dash low), List.length_cons,
        List.length_cons, ih]
      omega

theorem digits (pairs : PairText n text) : ∀ c ∈ undashed text, (hexDigit c).isSome = true := by
  induction pairs with
  | nil => exact fun c member => absurd member List.not_mem_nil
  | dash pairs ih => rwa [undashed_dash]
  | pair high low pairs ih =>
      rw [undashed_cons (ne_dash high), undashed_cons (ne_dash low)]
      intro c member
      rcases List.mem_cons.mp member with rfl | member
      · exact high
      rcases List.mem_cons.mp member with rfl | member
      · exact low
      · exact ih c member

/-- Every dash stands behind an even number of digits. -/
theorem even (pairs : PairText n text) {front back : List UInt8}
    (split : text = front ++ 45 :: back) :
    (undashed front).length % 2 = 0 := by
  induction pairs generalizing front with
  | nil => simp at split
  | dash pairs ih =>
      cases front with
      | nil => rfl
      | cons c front =>
          rw [List.cons_append, List.cons.injEq] at split
          obtain ⟨rfl, split⟩ := split
          rw [undashed_dash]
          exact ih split
  | pair high low pairs ih =>
      cases front with
      | nil =>
          rw [List.nil_append, List.cons.injEq] at split
          exact absurd split.1 (ne_dash high)
      | cons c front =>
          rw [List.cons_append, List.cons.injEq] at split
          obtain ⟨rfl, split⟩ := split
          cases front with
          | nil =>
              rw [List.nil_append, List.cons.injEq] at split
              exact absurd split.1 (ne_dash low)
          | cons d front =>
              rw [List.cons_append, List.cons.injEq] at split
              obtain ⟨rfl, split⟩ := split
              have shorter := ih split
              rw [undashed_cons (ne_dash high), undashed_cons (ne_dash low), List.length_cons,
                List.length_cons]
              omega

end PairText

theorem parseUuidLoop_full (text : List UInt8) {parsed : List UInt8} (full : parsed.length = 16) :
    parseUuidLoop text parsed = some parsed := by
  match text with
  | [] => rfl
  | [c] => rw [parseUuidLoop, if_pos (.inl full)]
  | c :: d :: rest => rw [parseUuidLoop, if_pos full]

theorem parseUuidLoop_dash (text : List UInt8) {parsed : List UInt8} (more : parsed.length ≠ 16) :
    parseUuidLoop (45 :: text) parsed = parseUuidLoop text parsed := by
  match text with
  | [] => exact if_pos (.inr rfl)
  | d :: rest => rw [parseUuidLoop, if_neg more, if_pos rfl]

theorem parseUuidLoop_pair {hi lo : UInt8} (high : (hexDigit hi).isSome = true)
    (low : (hexDigit lo).isSome = true) (text : List UInt8) {parsed : List UInt8}
    (more : parsed.length ≠ 16) :
    parseUuidLoop (hi :: lo :: text) parsed =
      parseUuidLoop text (parsed ++ [((hexDigit hi).getD 0 <<< 4) ||| (hexDigit lo).getD 0]) := by
  rw [parseUuidLoop, if_neg more, if_neg (ne_dash high)]
  obtain ⟨a, first⟩ := Option.isSome_iff_exists.mp high
  obtain ⟨b, second⟩ := Option.isSome_iff_exists.mp low
  rw [first, second]
  rfl

/-- Pairs are read, whatever follows. -/
theorem PairText.parseUuidLoop_eq {n : Nat} {text : List UInt8} (pairs : PairText n text)
    (rest : List UInt8) {parsed : List UInt8} (left : parsed.length + n = 16) :
    parseUuidLoop (text ++ rest) parsed = some (parsed ++ pairBytes (undashed text)) := by
  induction pairs generalizing parsed with
  | nil =>
      rw [List.nil_append, parseUuidLoop_full rest (by omega)]
      simp [undashed, pairBytes]
  | dash pairs ih =>
      rw [List.cons_append, parseUuidLoop_dash _ (by omega), undashed_dash, ih left]
  | pair high low pairs ih =>
      rw [List.cons_append, List.cons_append, parseUuidLoop_pair high low _ (by omega),
        ih (by rw [List.length_append, List.length_singleton]; omega), undashed_cons (ne_dash high),
        undashed_cons (ne_dash low), pairBytes, List.append_assoc, List.singleton_append]

/-- What is read starts with pairs. -/
theorem pairs_of_parseUuidLoop {text parsed whole : List UInt8} {n : Nat}
    (left : parsed.length + n = 16) (read : parseUuidLoop text parsed = some whole)
    (full : whole.length = 16) : ∃ front rest, text = front ++ rest ∧ PairText n front := by
  cases n with
  | zero => exact ⟨[], text, rfl, .nil⟩
  | succ n =>
      match text with
      | [] =>
          rw [parseUuidLoop, Option.some.injEq] at read
          rw [read] at left
          omega
      | [c] =>
          rw [parseUuidLoop] at read
          split_ifs at read
          rw [Option.some.injEq] at read
          rw [read] at left
          omega
      | c :: d :: rest =>
          rw [parseUuidLoop, if_neg (by omega)] at read
          split_ifs at read with dash
          · obtain ⟨front, after, split, pairs⟩ := pairs_of_parseUuidLoop left read full
            exact ⟨c :: front, after, by rw [split, List.cons_append], by
              rw [dash]; exact .dash pairs⟩
          · cases high : hexDigit c with
            | none => simp [high] at read
            | some hi =>
                cases low : hexDigit d with
                | none => simp [high, low] at read
                | some lo =>
                    rw [high, low] at read
                    obtain ⟨front, after, split, pairs⟩ := @pairs_of_parseUuidLoop rest _ whole n
                      (by rw [List.length_append, List.length_singleton]; omega) read full
                    exact ⟨c :: d :: front,
                      after, by rw [split, List.cons_append, List.cons_append],
                      .pair (by rw [high]; rfl) (by rw [low]; rfl) pairs⟩
  termination_by text.length

/-- Digits without a dash inside a pair are pairs, and dashes. -/
theorem pairs_of_text {text : List UInt8} {n : Nat} (length : (undashed text).length = 2 * n)
    (digits : ∀ c ∈ undashed text, (hexDigit c).isSome = true)
    (even : ∀ front back, text = front ++ 45 :: back → (undashed front).length % 2 = 0) :
    ∃ front rest, text = front ++ rest ∧ PairText n front ∧ ∀ c ∈ rest, c = 45 := by
  obtain ⟨size, short⟩ : ∃ size, text.length < size := ⟨_, Nat.lt_succ_self _⟩
  induction size generalizing text n with
  | zero => omega
  | succ size ih =>
      cases n with
      | zero =>
          have none := List.eq_nil_of_length_eq_zero length
          exact ⟨[], text, rfl, .nil, undashed_eq_nil.mp none⟩
      | succ n =>
          cases text with
          | nil => simp [undashed] at length
          | cons c rest =>
              rw [List.length_cons] at short
              by_cases dash : c = 45
              · subst dash
                rw [undashed_dash] at length digits
                obtain ⟨front, after, rfl, pairs, dashes⟩ := ih length digits
                  (fun front back split => even (45 :: front) back (by rw [split]; rfl)) (by omega)
                exact ⟨45 :: front, after, rfl, .dash pairs, dashes⟩
              · rw [undashed_cons dash] at length digits
                cases rest with
                | nil =>
                    have one : 1 = 2 * (n + 1) := length
                    omega
                | cons d rest =>
                    have second : d ≠ 45 := by
                      rintro rfl
                      have odd := even [c] rest rfl
                      rw [undashed_cons dash] at odd
                      contradiction
                    rw [undashed_cons second] at length digits
                    simp only [List.length_cons] at length short
                    obtain ⟨front, after, rfl, pairs, dashes⟩ := @ih rest n (by omega)
                      (fun e member => digits e (.tail _ (.tail _ member)))
                      (fun front back split => by
                        have longer := even (c :: d :: front) back (by rw [split]; rfl)
                        rw [undashed_cons dash, undashed_cons second] at longer
                        simp only [List.length_cons] at longer
                        omega) (by omega)
                    exact ⟨c :: d :: front, after, rfl,
                      .pair (digits c (.head _)) (digits d (.tail _ (.head _))) pairs, dashes⟩

theorem parseUuid_eq_some {front : List UInt8} (pairs : PairText 16 front) (rest : List UInt8) :
    ∃ uuid, parseUuid (front ++ rest) = some uuid ∧
      List.ofFn uuid = pairBytes (undashed front) := by
  have length : (pairBytes (undashed front)).length = 16 := by
    have double := length_pairBytes (undashed front)
    rw [pairs.length_undashed] at double
    exact double
  have loop := pairs.parseUuidLoop_eq rest (show ([] : List UInt8).length + 16 = 16 from rfl)
  rw [List.nil_append] at loop
  refine ⟨fun index => (pairBytes (undashed front)).getD index 0, ?_, ?_⟩
  · rw [parseUuid, loop]
    simp only [length, ne_eq, not_true_eq_false, if_false]
  · apply List.ext_getElem
    · rw [List.length_ofFn, length]
    · intro index inside inside'
      rw [List.getElem_ofFn, List.getD_eq_getElem _ _ inside']

theorem pairs_of_parseUuid {text : List UInt8} (read : (parseUuid text).isSome = true) :
    ∃ front rest, text = front ++ rest ∧ PairText 16 front := by
  rw [parseUuid] at read
  cases loop : parseUuidLoop text [] with
  | none => simp [loop] at read
  | some whole =>
      rw [loop] at read
      by_cases full : whole.length = 16
      · exact pairs_of_parseUuidLoop (show ([] : List UInt8).length + 16 = 16 from rfl) loop full
      · simp [full] at read

/-- Only dashes follow the first 16 pairs, and no dash stands inside a pair of a text with 32
digits. -/
structure PairsWhole (text : List UInt8) : Prop where
  ends : ∀ front rest, text = front ++ rest → PairText 16 front → ∀ c ∈ rest, c = 45
  whole : IsUuidText text → ∀ front back, text = front ++ 45 :: back →
    (undashed front).length % 2 = 0

theorem isUuidText_of_pairs {front rest : List UInt8} (pairs : PairText 16 front)
    (dashes : ∀ c ∈ rest, c = 45) : undashed (front ++ rest) = undashed front ∧
      IsUuidText (front ++ rest) := by
  have same : undashed (front ++ rest) = undashed front := by
    rw [undashed_append, undashed_eq_nil.mpr dashes, List.append_nil]
  refine ⟨same, ?_⟩
  rw [IsUuidText, same]
  exact ⟨pairs.length_undashed, pairs.digits⟩

theorem uuidRead_iff (text : List UInt8) : UuidRead text ↔ PairsWhole text := by
  constructor
  · rintro ⟨accepts, -⟩
    have ends : ∀ front rest, text = front ++ rest → PairText 16 front → ∀ c ∈ rest, c = 45 := by
      rintro front rest rfl pairs
      obtain ⟨uuid, read, -⟩ := parseUuid_eq_some pairs rest
      obtain ⟨length, -⟩ := accepts.mp (by rw [read]; rfl)
      have digits := pairs.length_undashed
      rw [undashed_append, List.length_append] at length
      exact undashed_eq_nil.mp (List.eq_nil_of_length_eq_zero (by omega))
    refine ⟨ends, fun isText front' back split => ?_⟩
    obtain ⟨front, rest, rfl, pairs⟩ := pairs_of_parseUuid (accepts.mpr isText)
    have dashes := ends front rest rfl pairs
    rcases List.append_eq_append_iff.mp split with ⟨middle, rfl, more⟩ | ⟨middle, rfl, more⟩
    · rw [undashed_append, List.length_append, pairs.length_undashed]
      have none : undashed middle = [] := undashed_eq_nil.mpr fun c member =>
        dashes c (by rw [more]; exact List.mem_append_left _ member)
      rw [none]
      rfl
    · cases middle with
      | nil =>
          rw [List.append_nil] at pairs
          rw [pairs.length_undashed]
      | cons c middle =>
          rw [List.cons_append, List.cons.injEq] at more
          exact pairs.even (by rw [← more.1])
  · rintro ⟨ends, whole⟩
    have accepts : (parseUuid text).isSome = true ↔ IsUuidText text := by
      constructor
      · intro read
        obtain ⟨front, rest, rfl, pairs⟩ := pairs_of_parseUuid read
        exact (isUuidText_of_pairs pairs (ends front rest rfl pairs)).2
      · intro isText
        obtain ⟨front, rest, rfl, pairs, -⟩ := @pairs_of_text text 16 isText.1 isText.2
          (whole isText)
        obtain ⟨uuid, read, -⟩ := parseUuid_eq_some pairs rest
        rw [read]
        rfl
    refine ⟨accepts, fun uuid read => ?_⟩
    obtain ⟨front, rest, rfl, pairs⟩ := pairs_of_parseUuid (by rw [read]; rfl)
    obtain ⟨uuid', read', values⟩ := parseUuid_eq_some pairs rest
    rw [read, Option.some.injEq] at read'
    rw [read', values, (isUuidText_of_pairs pairs (ends front rest rfl pairs)).1]

/-- A digit of `%x`. -/
def hexChar (nibble : UInt8) : UInt8 := if nibble < 10 then 48 + nibble else 87 + nibble

/-- `%02x` for each byte. -/
def hexText (bytes : List UInt8) : List UInt8 :=
  bytes.flatMap fun byte : UInt8 => [hexChar (byte >>> 4), hexChar (byte &&& 15)]

/-- `nebula_uuid_format`. -/
def nebulaUuidFormat (uuid : Bytes 16) : List UInt8 :=
  hexText [uuid 0, uuid 1, uuid 2, uuid 3] ++ 45 :: (hexText [uuid 4, uuid 5] ++ 45 ::
    (hexText [uuid 6, uuid 7] ++ 45 :: (hexText [uuid 8, uuid 9] ++ 45 ::
      hexText [uuid 10, uuid 11, uuid 12, uuid 13, uuid 14, uuid 15])))

/-- The two digits of a byte are read back. -/
theorem hexDigit_hexChar (byte : UInt8) :
    hexDigit (hexChar (byte >>> 4)) = some (byte >>> 4) ∧
      hexDigit (hexChar (byte &&& 15)) = some (byte &&& 15) ∧
      ((byte >>> 4) <<< 4) ||| (byte &&& 15) = byte := by
  have all : ∀ n : Fin 256, hexDigit (hexChar (UInt8.ofFin n >>> 4)) = some (UInt8.ofFin n >>> 4) ∧
      hexDigit (hexChar (UInt8.ofFin n &&& 15)) = some (UInt8.ofFin n &&& 15) ∧
      ((UInt8.ofFin n >>> 4) <<< 4) ||| (UInt8.ofFin n &&& 15) = UInt8.ofFin n := by
    decide +kernel
  exact all byte.toFin

/-- The text of some bytes, and what is read from it. -/
structure TextOf (bytes text : List UInt8) : Prop where
  pairs : PairText bytes.length text
  values : pairBytes (undashed text) = bytes

theorem TextOf.dash {bytes text : List UInt8} (some : bytes ≠ []) (textOf : TextOf bytes text) :
    TextOf bytes (45 :: text) where
  pairs := by
    obtain ⟨n, length⟩ := Nat.exists_eq_succ_of_ne_zero (List.length_pos_iff.mpr some).ne'
    have pairs := textOf.pairs
    rw [length] at pairs ⊢
    exact .dash pairs
  values := textOf.values

/-- Bytes are written in front of a text. -/
theorem TextOf.hexText_append {bytes text : List UInt8} (textOf : TextOf bytes text)
    (front : List UInt8) : TextOf (front ++ bytes) (hexText front ++ text) := by
  induction front with
  | nil => exact textOf
  | cons byte rest ih =>
      obtain ⟨high, low, value⟩ := hexDigit_hexChar byte
      have isHigh : (hexDigit (hexChar (byte >>> 4))).isSome = true := by rw [high]; rfl
      have isLow : (hexDigit (hexChar (byte &&& 15))).isSome = true := by rw [low]; rfl
      refine ⟨.pair isHigh isLow ih.pairs, ?_⟩
      change pairBytes (undashed (hexChar (byte >>> 4) :: hexChar (byte &&& 15) ::
        (hexText rest ++ text))) = byte :: (rest ++ bytes)
      rw [undashed_cons (ne_dash isHigh), undashed_cons (ne_dash isLow), pairBytes, ih.values, high,
        low, Option.getD_some, Option.getD_some, value]

theorem nebulaUuidFormat_text (uuid : Bytes 16) : TextOf (List.ofFn uuid)
    (nebulaUuidFormat uuid) := by
  have last : TextOf [uuid 10, uuid 11, uuid 12, uuid 13, uuid 14, uuid 15]
      (hexText [uuid 10, uuid 11, uuid 12, uuid 13, uuid 14, uuid 15]) := by
    have none : TextOf [] [] := ⟨.nil, by rw [undashed, List.filter_nil, pairBytes]; simp⟩
    have whole := none.hexText_append
      [uuid 10, uuid 11, uuid 12, uuid 13, uuid 14, uuid 15]
    rwa [List.append_nil, List.append_nil] at whole
  exact (((((((last.dash (by simp)).hexText_append [uuid 8, uuid 9]).dash (by simp)).hexText_append
    [uuid 6, uuid 7]).dash (by simp)).hexText_append [uuid 4, uuid 5]).dash
    (by simp)).hexText_append
    [uuid 0, uuid 1, uuid 2, uuid 3]

/-- A text is read as its format says exactly if nothing but dashes follows its pairs and
no dash splits one of them; the text of an identity is read back. -/
theorem parseUuid_exact_iff (text : List UInt8) (uuid : Bytes 16) :
    (UuidRead text ↔ PairsWhole text) ∧ parseUuid (nebulaUuidFormat uuid) = some uuid := by
  refine ⟨uuidRead_iff text, ?_⟩
  obtain ⟨pairs, values⟩ := nebulaUuidFormat_text uuid
  rw [List.length_ofFn] at pairs
  obtain ⟨read, parsed, same⟩ := parseUuid_eq_some pairs []
  rw [List.append_nil] at parsed
  rw [parsed, Option.some.injEq]
  exact List.ofFn_injective (same.trans values)

/-- 32 zeros and a letter that is no digit are accepted. -/
theorem parseUuid_trailing_text : ¬ ∀ text, UuidRead text := by
  intro claim
  have digits : PairText 16 (List.replicate 32 48) := by
    have pair : ∀ n, PairText n (List.replicate (2 * n) 48) := by
      intro n
      induction n with
      | zero => exact .nil
      | succ n ih => exact .pair rfl rfl ih
    exact pair 16
  have ends := ((uuidRead_iff _).mp (claim (List.replicate 32 48 ++ [122]))).ends _ _ rfl digits
  exact absurd (ends 122 (by simp)) (by decide)

end MiniFs
