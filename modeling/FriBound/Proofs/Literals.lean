import FriBound.Decimal.Literal
import FriBound.Proofs.Numerals
import Mathlib.Data.List.TakeWhile

/-!
# The notation of numbers

The grammar of number literals, and that the reader accepts exactly its texts: an optional sign,
then a word for infinity or for what is not a number, in letters of any size, or digits with at most
one point among or beside them and an optional power of ten.

## Main definitions

* `Decimal.Mantissa`, `Decimal.TenPower` — the two parts of a literal of digits
* `Decimal.Literal` — literals

## Main results

* `Decimal.read_isOk_iff` — the reader accepts the literals and nothing else
-/

namespace FriBound.Decimal

variable {cs ds es rest : List Char}

/-! ### The grammar -/

/-- Digits, at least one of them, with at most one point among or beside them. -/
inductive Mantissa : List Char → Prop
  | whole {ds : List Char} : ds ≠ [] → (∀ c ∈ ds, c.isDigit = true) → Mantissa ds
  | point {ds es : List Char} : ds ++ es ≠ [] → (∀ c ∈ ds, c.isDigit = true) →
      (∀ c ∈ es, c.isDigit = true) → Mantissa (ds ++ '.' :: es)

/-- A power of ten: the letter and a whole number. -/
inductive TenPower : List Char → Prop
  | small {cs : List Char} {z : Int} : SignedNumeral cs z → TenPower ('e' :: cs)
  | capital {cs : List Char} {z : Int} : SignedNumeral cs z → TenPower ('E' :: cs)

/-- A literal without a sign. -/
inductive UnsignedLiteral : List Char → Prop
  | inf {cs : List Char} : cs.map Char.toLower = "inf".toList → UnsignedLiteral cs
  | infinity {cs : List Char} : cs.map Char.toLower = "infinity".toList → UnsignedLiteral cs
  | nan {cs : List Char} : cs.map Char.toLower = "nan".toList → UnsignedLiteral cs
  | plain {ds : List Char} : Mantissa ds → UnsignedLiteral ds
  | power {ds es : List Char} : Mantissa ds → TenPower es → UnsignedLiteral (ds ++ es)

/-- A literal, with a sign of either kind or none. -/
inductive Literal : List Char → Prop
  | bare {cs : List Char} : UnsignedLiteral cs → Literal cs
  | plus {cs : List Char} : UnsignedLiteral cs → Literal ('+' :: cs)
  | minus {cs : List Char} : UnsignedLiteral cs → Literal ('-' :: cs)

/-! ### Powers of ten -/

theorem exists_digitString_iff :
    (∃ n, DigitString cs n) ↔ cs ≠ [] ∧ ∀ c ∈ cs, c.isDigit = true := by
  constructor
  · rintro ⟨n, h⟩
    exact ⟨h.ne_nil, h.isDigit⟩
  · rintro ⟨hne, hdigits⟩
    exact ⟨_, hne, hdigits, rfl⟩

theorem splitSign_of_not_sign {c : Char} (hplus : c ≠ '+') (hminus : c ≠ '-') :
    splitSign (c :: cs) = (false, c :: cs) := by
  rw [splitSign] <;> simp_all

/-- A whole number is what has digits after its sign. -/
theorem exists_signedNumeral_iff :
    (∃ z, SignedNumeral cs z) ↔ ∃ n, DigitString (splitSign cs).2 n := by
  rcases WordRange.text_cases cs with rfl | ⟨ds, rfl⟩ | ⟨ds, rfl⟩ | ⟨c, ds, rfl, hplus, hminus⟩
  · simp [signedNumeral_iff, splitSign, not_numeral_nil, not_digitString_nil]
  · simp [signedNumeral_iff, splitSign, numeral_plus_iff]
  · simp [signedNumeral_iff, splitSign, not_numeral_minus]
  · rw [splitSign_of_not_sign hplus hminus]
    simp [signedNumeral_iff, numeral_bare_iff hplus, hminus]

theorem tenPower_cons_iff {c : Char} :
    TenPower (c :: cs) ↔ (c = 'e' ∨ c = 'E') ∧ ∃ z, SignedNumeral cs z := by
  constructor
  · intro h
    cases h with
    | small h => exact ⟨.inl rfl, _, h⟩
    | capital h => exact ⟨.inr rfl, _, h⟩
  · rintro ⟨rfl | rfl, z, h⟩
    · exact .small h
    · exact .capital h

theorem readPower_isSome_iff : (readPower cs).isSome = true ↔ cs = [] ∨ TenPower cs := by
  cases cs with
  | nil => simp [readPower]
  | cons c cs =>
    rw [tenPower_cons_iff, exists_signedNumeral_iff, exists_digitString_iff, readPower]
    by_cases hc : c = 'e' ∨ c = 'E'
    · rcases splitSign cs with ⟨neg, ds⟩
      by_cases hds : ds ≠ [] ∧ ∀ d ∈ ds, d.isDigit = true
      · simp [hc, hds]
      · simp_all
    · simp [hc]

/-! ### Digits and the point -/

/-- The text does not go on with a digit. -/
def NoDigitFirst (cs : List Char) : Prop := ∀ c ∈ cs.head?, c.isDigit = false

theorem takeWhile_digits (hds : ∀ c ∈ ds, c.isDigit = true) (hrest : NoDigitFirst rest) :
    (ds ++ rest).takeWhile Char.isDigit = ds ∧ (ds ++ rest).dropWhile Char.isDigit = rest := by
  rw [List.takeWhile_append_of_pos hds, List.dropWhile_append_of_pos hds]
  cases rest with
  | nil => simp
  | cons c cs =>
    have hc : c.isDigit = false := hrest c rfl
    simp [hc]

theorem noDigitFirst_dropWhile (cs : List Char) : NoDigitFirst (cs.dropWhile Char.isDigit) := by
  intro c hc
  have := List.head?_dropWhile_not Char.isDigit cs
  simp_all

theorem readDigits_whole (hds : ∀ c ∈ ds, c.isDigit = true) (hrest : NoDigitFirst rest)
    (hpoint : ∀ es, rest ≠ '.' :: es) :
    (readDigits (ds ++ rest)).isSome = true ↔ ds ≠ [] ∧ (readPower rest).isSome = true := by
  obtain ⟨htake, hdrop⟩ := takeWhile_digits hds hrest
  rw [readDigits, htake, hdrop]
  split
  rename_i hpart
  split at hpart
  · exact absurd rfl (hpoint _)
  · cases hpart
    cases ds <;> simp

theorem readDigits_point (hds : ∀ c ∈ ds, c.isDigit = true) (hes : ∀ c ∈ es, c.isDigit = true)
    (hrest : NoDigitFirst rest) :
    (readDigits (ds ++ '.' :: (es ++ rest))).isSome = true ↔
      ds ++ es ≠ [] ∧ (readPower rest).isSome = true := by
  have hpoint : NoDigitFirst ('.' :: (es ++ rest)) := by simp [NoDigitFirst]
  obtain ⟨htake, hdrop⟩ := takeWhile_digits hds hpoint
  obtain ⟨htake', hdrop'⟩ := takeWhile_digits hes hrest
  simp only [readDigits, htake, hdrop, htake', hdrop']
  cases ds <;> cases es <;> simp

/-- What may follow the digits of a literal opens with neither a digit nor a point. -/
theorem noDigitFirst_of_power (h : rest = [] ∨ TenPower rest) :
    NoDigitFirst rest ∧ ∀ es, rest ≠ '.' :: es := by
  rcases h with rfl | h
  · simp [NoDigitFirst]
  · cases h <;> simp [NoDigitFirst]

theorem readDigits_isSome_iff : (readDigits cs).isSome = true ↔
    ∃ ds rest, cs = ds ++ rest ∧ Mantissa ds ∧ (rest = [] ∨ TenPower rest) := by
  constructor
  · intro h
    have hcs := List.takeWhile_append_dropWhile (p := Char.isDigit) (l := cs)
    have hds : ∀ c ∈ cs.takeWhile Char.isDigit, c.isDigit = true :=
      fun c hc => List.mem_takeWhile_imp hc
    have hrest := noDigitFirst_dropWhile cs
    generalize cs.takeWhile Char.isDigit = ds at hcs hds
    generalize cs.dropWhile Char.isDigit = rest at hcs hrest
    subst hcs
    by_cases hpoint : ∃ es, rest = '.' :: es
    · obtain ⟨es, rfl⟩ := hpoint
      rw [← List.takeWhile_append_dropWhile (p := Char.isDigit) (l := es)] at h
      have hes : ∀ c ∈ es.takeWhile Char.isDigit, c.isDigit = true :=
        fun c hc => List.mem_takeWhile_imp hc
      obtain ⟨hne, hpower⟩ := (readDigits_point hds hes (noDigitFirst_dropWhile es)).mp h
      refine ⟨_, _, ?_, .point hne hds hes, readPower_isSome_iff.mp hpower⟩
      rw [List.append_assoc, List.cons_append, List.takeWhile_append_dropWhile]
    · obtain ⟨hne, hpower⟩ := (readDigits_whole hds hrest (not_exists.mp hpoint)).mp h
      exact ⟨_, _, rfl, .whole hne hds, readPower_isSome_iff.mp hpower⟩
  · rintro ⟨ds, rest, rfl, hds, hrest⟩
    have hpower := readPower_isSome_iff.mpr hrest
    obtain ⟨hfirst, hpoint⟩ := noDigitFirst_of_power hrest
    cases hds with
    | whole hne hds => exact (readDigits_whole hds hfirst hpoint).mpr ⟨hne, hpower⟩
    | point hne hds hes =>
      rw [List.append_assoc, List.cons_append]
      exact (readDigits_point hds hes hfirst).mpr ⟨hne, hpower⟩

/-! ### Literals -/

theorem unsignedLiteral_iff : UnsignedLiteral cs ↔
    cs.map Char.toLower ∈ ["inf".toList, "infinity".toList, "nan".toList] ∨
      ∃ ds rest, cs = ds ++ rest ∧ Mantissa ds ∧ (rest = [] ∨ TenPower rest) := by
  constructor
  · intro h
    cases h with
    | inf h => simp [h]
    | infinity h => simp [h]
    | nan h => simp [h]
    | plain h => exact .inr ⟨cs, [], (List.append_nil cs).symm, h, .inl rfl⟩
    | power hds hes => exact .inr ⟨_, _, rfl, hds, .inr hes⟩
  · rintro (h | ⟨ds, rest, rfl, hds, rfl | hrest⟩)
    · simp only [List.mem_cons, List.not_mem_nil, or_false] at h
      rcases h with h | h | h
      · exact .inf h
      · exact .infinity h
      · exact .nan h
    · rw [List.append_nil]
      exact .plain hds
    · exact .power hds hrest

theorem readUnsigned_isSome_iff (neg : Bool) :
    (readUnsigned neg cs).isSome = true ↔ UnsignedLiteral cs := by
  rw [unsignedLiteral_iff, readUnsigned, ← readDigits_isSome_iff]
  split
  · simp_all
  · simp_all
  · simp_all
  · rename_i hinf hinfinity hnan
    simp_all

theorem not_unsignedLiteral_nil : ¬UnsignedLiteral [] := by
  rw [← readUnsigned_isSome_iff false]
  decide

/-- The sign of a literal is not a part of what follows it. -/
theorem not_unsignedLiteral_sign {c : Char} (h : c = '+' ∨ c = '-') :
    ¬UnsignedLiteral (c :: cs) := by
  rw [← readUnsigned_isSome_iff false]
  rcases h with rfl | rfl
  · simp [readUnsigned, readDigits]
  · simp [readUnsigned, readDigits]

theorem literal_iff : Literal cs ↔ UnsignedLiteral (splitSign cs).2 := by
  constructor
  · intro h
    cases h with
    | bare h =>
      cases cs with
      | nil => exact h
      | cons c cs =>
        rw [splitSign_of_not_sign]
        · exact h
        · exact fun hc => not_unsignedLiteral_sign (.inl hc) h
        · exact fun hc => not_unsignedLiteral_sign (.inr hc) h
    | plus h => exact h
    | minus h => exact h
  · intro h
    rcases WordRange.text_cases cs with rfl | ⟨ds, rfl⟩ | ⟨ds, rfl⟩ | ⟨c, ds, rfl, hplus, hminus⟩
    · exact .bare h
    · exact .plus h
    · exact .minus h
    · rw [splitSign_of_not_sign hplus hminus] at h
      exact .bare h

/-- **The reader accepts the literals and nothing else.** -/
theorem read_isOk_iff {s : String} : (∃ x, read s = .ok x) ↔ Literal s.toList := by
  rw [literal_iff, read]
  by_cases hs : s.isEmpty = true
  · have hnil : s.toList = [] := by simpa using hs
    simp [hs, hnil, splitSign, not_unsignedLiteral_nil]
  · rw [if_neg hs, ← readUnsigned_isSome_iff (splitSign s.toList).1]
    rcases splitSign s.toList with ⟨neg, cs⟩
    cases h : readUnsigned neg cs with
    | none => simp [h]
    | some x => simp [h]

end FriBound.Decimal
