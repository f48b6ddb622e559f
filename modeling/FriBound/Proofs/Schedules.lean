import FriBound.Message
import FriBound.Schedule
import Mathlib.Data.Nat.Size

/-!
# How a schedule becomes an instance

The logarithm of the domain size is the sum of two words. It is checked against the range of words
and against the range of exponents, in this order, so the sum alone decides which of the two errors
is reported. The later checks cannot fail: the rate is not above the sum, and the field is taken to
be of a size that is an exponent, as that of every field of the curve is.

None of this depends on what kind of number `m` is, so `m` goes through the way it is.

## Main definitions

* `Schedule.domainBits` — the logarithm of the domain size
* `Schedule.Describes` — the parameters are those of the schedule
* `Schedule.ReadsSchedule` — what becomes of a schedule

## Main results

* `Schedule.readsSchedule` — this is what becomes of any schedule over a field of such a size
-/

namespace FriBound

/-! ### Fields -/

theorem FieldShape.sizeBits_eq (f : FieldShape) : f.sizeBits = f.modulus.size * f.degree := by
  have hmodulus : f.modulus ≠ 0 := Nat.ne_of_gt (Nat.lt_trans Nat.zero_lt_one f.one_lt_modulus)
  have hsize : f.modulus.size = f.modulus.log2 + 1 := by
    refine Nat.le_antisymm (Nat.size_le.mpr ?_) (Nat.lt_size.mpr (Nat.log2_self_le hmodulus))
    exact Nat.lt_log2_self
  rw [sizeBits, hsize]

theorem CurveField.sizeBits_le (f : CurveField) : f.shape.sizeBits ≤ 2 ^ 31 - 1 := by
  cases f <;> decide +kernel

namespace Schedule

variable {α : Type} {s : Schedule α}

/-! ### Exponents -/

theorem exponent_of_le {name : Exponent} {n : Nat} (h : n ≤ 2 ^ 31 - 1) :
    (exponent name n : Except (BoundError α) Int32) = .ok (.ofNat n) :=
  if_pos (by omega)

theorem exponent_of_lt {name : Exponent} {n : Nat} (h : 2 ^ 31 - 1 < n) :
    (exponent name n : Except (BoundError α) Int32) = .error (.invalid (.tooLarge name n)) :=
  if_neg (by omega)

theorem toInt_ofNat_of_le {n : Nat} (h : n ≤ 2 ^ 31 - 1) : (Int32.ofNat n).toInt = n :=
  Int32.toInt_ofNat_of_lt (by omega)

/-! ### The ways it can go -/

/-- The logarithm of the domain size, as a natural number. -/
def domainBits (s : Schedule α) : Nat := s.degreeBits.toNat + s.rateBits.toNat

/-- The parameters `p` are those of the schedule, number for number. -/
structure Describes (s : Schedule α) (p : Params α) : Prop where
  numFunctions : p.numFunctions = 1
  rateBits : p.rateBits.toInt = s.rateBits.toNat
  codewordSizeBits : p.codewordSizeBits.toInt = s.degreeBits.toNat + s.rateBits.toNat
  m : p.m = s.m
  arityBits : p.arityBits = s.arityBits
  numRounds : p.numRounds = s.arityBits.length
  /-- The bits of the modulus, as often as the degree of the extension says. -/
  fieldSizeBits : p.fieldSizeBits.toInt = s.field.modulus.size * s.field.degree
  numQueries : p.numQueries = s.numQueries

theorem params_of_word_lt (h : 2 ^ 64 ≤ s.domainBits) :
    s.params = .error (.invalid (.domainOverflow s.degreeBits s.rateBits)) := by
  rw [domainBits] at h
  simp only [params, h, if_true]
  rfl

theorem params_of_exponent_lt (hword : s.domainBits < 2 ^ 64) (h : 2 ^ 31 - 1 < s.domainBits) :
    s.params = .error (.invalid (.tooLarge .codewordSizeBits s.domainBits)) := by
  rw [domainBits] at hword h
  simp only [params, Nat.not_le.mpr hword, if_false, exponent_of_lt h]
  rfl

/-- Once the sum is an exponent, so are the rate and the field. -/
theorem exists_params_of_le (h : s.domainBits ≤ 2 ^ 31 - 1)
    (hfield : s.field.sizeBits ≤ 2 ^ 31 - 1) : ∃ p, s.params = .ok p ∧ s.Describes p := by
  rw [domainBits] at h
  have hword : ¬2 ^ 64 ≤ s.degreeBits.toNat + s.rateBits.toNat := by omega
  have hrate : s.rateBits.toNat ≤ 2 ^ 31 - 1 := Nat.le_of_add_left_le h
  simp only [params, hword, if_false, exponent_of_le h, exponent_of_le hrate, exponent_of_le hfield]
  refine ⟨_, rfl, ?_⟩
  exact {
    numFunctions := rfl
    rateBits := toInt_ofNat_of_le hrate
    codewordSizeBits := by rw [toInt_ofNat_of_le h, Int.natCast_add]
    m := rfl
    arityBits := rfl
    numRounds := rfl
    fieldSizeBits := by rw [toInt_ofNat_of_le hfield, s.field.sizeBits_eq, Int.natCast_mul]
    numQueries := rfl }

/-- The three ways it can go. -/
theorem params_cases (s : Schedule α) (hfield : s.field.sizeBits ≤ 2 ^ 31 - 1) :
    (s.domainBits ≤ 2 ^ 31 - 1 ∧ ∃ p, s.params = .ok p ∧ s.Describes p) ∨
      (2 ^ 31 ≤ s.domainBits ∧ s.domainBits < 2 ^ 64 ∧
        s.params = .error (.invalid (.tooLarge .codewordSizeBits s.domainBits))) ∨
      2 ^ 64 ≤ s.domainBits ∧
        s.params = .error (.invalid (.domainOverflow s.degreeBits s.rateBits)) := by
  rcases Nat.lt_or_ge s.domainBits (2 ^ 64) with hword | hword
  · rcases Nat.lt_or_ge (2 ^ 31 - 1) s.domainBits with hlarge | hfits
    · exact .inr (.inl ⟨hlarge, hword, params_of_exponent_lt hword hlarge⟩)
    · exact .inl ⟨hfits, exists_params_of_le hfits hfield⟩
  · exact .inr (.inr ⟨hword, params_of_word_lt hword⟩)

/-! ### Any schedule -/

/-- What becomes of a schedule. -/
structure ReadsSchedule (s : Schedule α) : Prop where
  /-- It is an instance if the logarithm of the domain size is an exponent. -/
  ok_iff : (∃ p, s.params = .ok p) ↔ s.domainBits ≤ 2 ^ 31 - 1
  /-- And then nothing is lost. -/
  describes : ∀ p, s.params = .ok p → s.Describes p
  /-- A sum beyond the words is an error about the two numbers given. -/
  domainOverflow_iff : ∀ degreeBits rateBits,
    s.params = .error (.invalid (.domainOverflow degreeBits rateBits)) ↔
      2 ^ 64 ≤ s.domainBits ∧ degreeBits = s.degreeBits ∧ rateBits = s.rateBits
  /-- Another sum beyond the exponents is an error about the sum. No other exponent is refused. -/
  tooLarge_iff : ∀ name n, s.params = .error (.invalid (.tooLarge name n)) ↔
    name = .codewordSizeBits ∧ n = s.domainBits ∧ 2 ^ 31 ≤ n ∧ n < 2 ^ 64
  /-- There are no other errors. -/
  error_cases : ∀ e, s.params = .error e →
    (∃ degreeBits rateBits, e = .invalid (.domainOverflow degreeBits rateBits)) ∨
      ∃ name n, e = .invalid (.tooLarge name n)
  /-- The first error quotes both numbers. -/
  domainOverflow_message :
    BoundError.message (.invalid (.domainOverflow s.degreeBits s.rateBits)) =
      "Invalid parameter: degree_bits (" ++ toString s.degreeBits.toNat ++ ") + rate_bits ("
        ++ toString s.rateBits.toNat ++ ") overflows"
  /-- The second one quotes the sum. -/
  tooLarge_message :
    BoundError.message (.invalid (.tooLarge .codewordSizeBits s.domainBits)) =
      "Invalid parameter: codeword_size_bits too large: " ++ toString s.domainBits

/-- **What becomes of any schedule** over a field whose size is an exponent, which that of every
field of the curve is. -/
theorem readsSchedule : (∀ f : CurveField, f.shape.sizeBits ≤ 2 ^ 31 - 1) ∧
    ∀ {α : Type} (s : Schedule α), s.field.sizeBits ≤ 2 ^ 31 - 1 → s.ReadsSchedule := by
  refine ⟨CurveField.sizeBits_le, fun s hfield => ?_⟩
  rcases s.params_cases hfield with ⟨hfits, p, hp, hdescribes⟩ | ⟨hlarge, hword, hp⟩ | ⟨hword, hp⟩
  · exact {
      ok_iff := iff_of_true ⟨p, hp⟩ hfits
      describes := fun q hq => by
        rw [hp] at hq
        cases hq
        exact hdescribes
      domainOverflow_iff := fun _ _ => iff_of_false (by simp [hp]) (by omega)
      tooLarge_iff := fun _ _ => iff_of_false (by simp [hp]) (by omega)
      error_cases := by simp [hp]
      domainOverflow_message := rfl
      tooLarge_message := rfl }
  · exact {
      ok_iff := iff_of_false (by simp [hp]) (by omega)
      describes := by simp [hp]
      domainOverflow_iff := fun _ _ => iff_of_false (by simp [hp]) (by omega)
      tooLarge_iff := by
        intro name n
        rw [hp]
        constructor
        · rintro ⟨⟩
          exact ⟨rfl, rfl, hlarge, hword⟩
        · rintro ⟨rfl, rfl, -⟩
          rfl
      error_cases := by
        rw [hp]
        rintro _ ⟨⟩
        exact .inr ⟨_, _, rfl⟩
      domainOverflow_message := rfl
      tooLarge_message := rfl }
  · exact {
      ok_iff := iff_of_false (by simp [hp]) (by omega)
      describes := by simp [hp]
      domainOverflow_iff := by
        intro degreeBits rateBits
        rw [hp]
        constructor
        · rintro ⟨⟩
          exact ⟨hword, rfl, rfl⟩
        · rintro ⟨-, rfl, rfl⟩
          rfl
      tooLarge_iff := fun _ _ => iff_of_false (by simp [hp]) (by omega)
      error_cases := by
        rw [hp]
        rintro _ ⟨⟩
        exact .inl ⟨_, _, rfl⟩
      domainOverflow_message := rfl
      tooLarge_message := rfl }

/-- A polynomial of degree `2 ^ 16` over the scalar field, folded in three rounds. -/
def shortSchedule : Schedule Binary64 where
  field := CurveField.fr
  degreeBits := 16
  rateBits := 2
  m := .ofInt 3
  arityBits := [3, 3, 2]
  numQueries := 50

theorem readsSchedule_shortSchedule : ∃ p, shortSchedule.params = .ok p ∧
    p.codewordSizeBits.toInt = 18 ∧ p.fieldSizeBits.toInt = 254 := by
  have hreads := readsSchedule.2 shortSchedule (readsSchedule.1 .fr)
  obtain ⟨p, hp⟩ := hreads.ok_iff.mpr (by decide)
  have hdescribes := hreads.describes p hp
  refine ⟨p, hp, ?_, ?_⟩
  · rw [hdescribes.codewordSizeBits]
    decide
  · rw [hdescribes.fieldSizeBits, ← Int.natCast_mul, ← FieldShape.sizeBits_eq]
    decide +kernel

end Schedule

end FriBound
