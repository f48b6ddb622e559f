import FriBound.Proofs.Range
import FriBound.Proofs.Schedules
import FriBound.Proofs.Violations

/-!
# Which schedules are valid

Validation goes through eight constraints and reports the first that is violated. The parameters of
a schedule are made so that four of them hold: there is one function, the rounds are counted, a
field has two elements or more, and a domain is not smaller than the rate asks for. So an instance
is judged by the rate, by `m`, by the arities and by the number of queries, in this order.

The domain is a single point if polynomial and rate are trivial. Then the rate is violated too, and
it is the one that is reported.

## Main definitions

* `FirstZero` — where the first zero of a schedule is
* `Schedule.Judges` — how validation judges a schedule

## Main results

* `Schedule.Describes.validate_eq` — the four checks that are left
* `Schedule.judges` — this is how validation judges any schedule that gives an instance
-/

namespace FriBound

/-! ### The first zero -/

/-- The first zero of the list is at `round`. -/
def FirstZero (as : List UInt64) (round : Nat) : Prop :=
  as[round]? = some 0 ∧ ∀ i < round, as[i]? ≠ some 0

theorem findIdx?_eq_some_iff_firstZero {as : List UInt64} {round : Nat} :
    as.findIdx? (· == 0) = some round ↔ FirstZero as round := by
  rw [List.findIdx?_eq_some_iff_getElem, FirstZero]
  constructor
  · rintro ⟨hlt, hzero, hbefore⟩
    refine ⟨?_, fun i hi => ?_⟩
    · rw [List.getElem?_eq_getElem hlt, beq_iff_eq.mp hzero]
    · have hne := hbefore i hi
      rw [List.getElem?_eq_getElem (Nat.lt_trans hi hlt)]
      simpa using hne
  · rintro ⟨hzero, hbefore⟩
    obtain ⟨hlt, hget⟩ := List.getElem?_eq_some_iff.mp hzero
    refine ⟨hlt, beq_iff_eq.mpr hget, fun i hi => ?_⟩
    have hne := hbefore i hi
    rw [List.getElem?_eq_getElem (Nat.lt_trans hi hlt)] at hne
    simpa using hne

theorem one_le_iff {a : UInt64} : 1 ≤ a ↔ a ≠ 0 := by
  rw [UInt64.le_iff_toNat_le, ne_eq, ← UInt64.toNat_inj]
  exact Nat.one_le_iff_ne_zero

theorem findIdx?_eq_none_iff_one_le {as : List UInt64} :
    as.findIdx? (· == 0) = none ↔ ∀ a ∈ as, 1 ≤ a := by
  simp only [List.findIdx?_eq_none_iff, beq_eq_false_iff_ne, one_le_iff]

theorem firstZero_iff_eq {as : List UInt64} {round : Nat}
    (h : as.findIdx? (· == 0) = some round) (i : Nat) : FirstZero as i ↔ round = i := by
  rw [← findIdx?_eq_some_iff_firstZero, h, Option.some.injEq]

theorem not_firstZero {as : List UInt64} (h : as.findIdx? (· == 0) = none) (i : Nat) :
    ¬FirstZero as i := by
  rw [← findIdx?_eq_some_iff_firstZero, h]
  simp

namespace Schedule

open Binary64

variable {α : Type}

/-! ### Instances of a schedule -/

/-- The field of a schedule that gives an instance has a size that is an exponent. -/
theorem sizeBits_le_of_params {s : Schedule α} {p : Params α} (h : s.params = .ok p) :
    s.field.sizeBits ≤ 2 ^ 31 - 1 := by
  refine Nat.le_of_not_lt fun hlarge => ?_
  have hfield : (exponent .fieldSizeBits s.field.sizeBits : Except (BoundError α) Int32) =
      .error (.invalid (.tooLarge .fieldSizeBits s.field.sizeBits)) := exponent_of_lt hlarge
  simp only [params, hfield] at h
  split at h
  · cases h
  · generalize exponent Exponent.codewordSizeBits _ = size at h
    generalize exponent Exponent.rateBits _ = rate at h
    cases size <;> cases rate <;> cases h

theorem describes_of_params {s : Schedule α} {p : Params α} (h : s.params = .ok p) :
    s.Describes p := by
  rcases s.params_cases (sizeBits_le_of_params h) with ⟨-, q, hq, hdescribes⟩ | ⟨-, -, he⟩ | ⟨-, he⟩
  · rw [h] at hq
    cases hq
    exact hdescribes
  · simp [he] at h
  · simp [he] at h

/-- A field has two elements or more. -/
theorem Describes.fieldSizeBits_pos {s : Schedule α} {p : Params α} (h : s.Describes p) :
    0 < p.fieldSizeBits.toInt := by
  rw [h.fieldSizeBits, ← Int.natCast_mul, ← FieldShape.sizeBits_eq]
  exact Int.natCast_pos.mpr (Nat.mul_pos (Nat.succ_pos _) s.field.degree_pos)

theorem Describes.rateBits_eq_zero_iff {s : Schedule α} {p : Params α} (h : s.Describes p) :
    p.rateBits.toInt ≤ 0 ↔ s.rateBits = 0 := by
  rw [h.rateBits, ← UInt64.toNat_inj]
  exact Int.natCast_nonpos_iff

theorem Describes.rateBits_eq_zero {s : Schedule α} {p : Params α} (h : s.Describes p)
    (hrate : s.rateBits = 0) : p.rateBits = 0 := by
  rw [← Int32.toInt_inj, h.rateBits, hrate]
  rfl

/-! ### Validation of an instance -/

variable {s : Schedule Binary64} {p : Params Binary64}

/-- The `m` of the schedule is positive and finite. -/
def HasProximity (s : Schedule Binary64) : Prop :=
  s.m.isFinite = true ∧ (zero false).lt s.m = true

instance : Decidable s.HasProximity := inferInstanceAs (Decidable (_ ∧ _))

/-! The refusals for the instance of a schedule, constraint by constraint. -/

section

variable (h : s.Describes p)
include h

open Constraint

theorem Describes.refusal?_rate :
    refusal? p .rate = if s.rateBits = 0 then some (.rateBits 0) else none := by
  rw [refusal?]
  by_cases hrate : s.rateBits = 0
  · rw [if_pos (h.rateBits_eq_zero_iff.mpr hrate), if_pos hrate, h.rateBits_eq_zero hrate]
  · rw [if_neg (mt h.rateBits_eq_zero_iff.mp hrate), if_neg hrate]

theorem Describes.refusal?_proximity :
    refusal? p .proximity = if s.HasProximity then none else some (.proximity s.m) := by
  have hproximity : ((p.m.isFinite && (ofInt 0).lt p.m) = true) ↔ s.HasProximity := by
    rw [Bool.and_eq_true, h.m, ofInt_zero]
    exact Iff.rfl
  by_cases hm : s.HasProximity
  · exact (if_pos (hproximity.mpr hm)).trans (if_pos hm).symm
  · rw [if_neg hm, ← h.m]
    exact if_neg (mt hproximity.mp hm)

/-- A domain that is too small comes with a rate that is. -/
theorem Describes.refusal?_domain (hrate : s.rateBits ≠ 0) : refusal? p .domain = none := by
  refine if_neg fun hsize => hrate (h.rateBits_eq_zero_iff.mp ?_)
  rw [h.codewordSizeBits] at hsize
  rw [h.rateBits]
  omega

/-- Four checks are left. -/
theorem Describes.validate_eq : p.validate =
    if s.rateBits = 0 then .error (.invalid (.rateBits 0))
    else if s.HasProximity then
      match s.arityBits.findIdx? (· == 0) with
      | some i => .error (.invalid (.noFolding i))
      | none => if s.numQueries = 0 then .error (.invalid .noQueries) else .ok ()
    else .error (.invalid (.proximity s.m)) := by
  have hfunctions : refusal? p .functions = none := by simp [refusal?, h.numFunctions]
  have hrounds : refusal? p .rounds = none := by simp [refusal?, h.numRounds, h.arityBits]
  have hfield : refusal? p .field = none := by simp [refusal?, h.fieldSizeBits_pos]
  rw [Params.validate_eq_findSome]
  simp only [order, List.findSome?_cons, List.findSome?_nil, hfunctions, hrounds, hfield,
    h.refusal?_rate]
  by_cases hrate : s.rateBits = 0
  · rw [if_pos hrate, if_pos hrate]
  rw [if_neg hrate, if_neg hrate]
  simp only [h.refusal?_domain hrate, h.refusal?_proximity]
  by_cases hm : s.HasProximity
  · rw [if_pos hm, if_pos hm]
    simp only [refusal?, h.arityBits, h.numQueries]
    cases s.arityBits.findIdx? (· == 0) with
    | some i => rfl
    | none => by_cases hqueries : s.numQueries = 0 <;> simp [hqueries]
  · rw [if_neg hm, if_neg hm]

end

/-- How validation judges the instance `p` of the schedule `s`. -/
structure Judges (s : Schedule Binary64) (p : Params Binary64) : Prop where
  /-- It passes if four constraints hold. -/
  ok_iff : p.validate = .ok () ↔
    1 ≤ s.rateBits ∧ s.HasProximity ∧ (∀ a ∈ s.arityBits, 1 ≤ a) ∧ 1 ≤ s.numQueries
  /-- The first of them that is violated is reported. The rate comes first, -/
  rateBits_iff : ∀ bits, p.validate = .error (.invalid (.rateBits bits)) ↔
    s.rateBits = 0 ∧ bits = 0
  /-- then `m`, -/
  proximity_iff : ∀ m, p.validate = .error (.invalid (.proximity m)) ↔
    1 ≤ s.rateBits ∧ ¬s.HasProximity ∧ m = s.m
  /-- then the first round without folding, -/
  noFolding_iff : ∀ round, p.validate = .error (.invalid (.noFolding round)) ↔
    1 ≤ s.rateBits ∧ s.HasProximity ∧ FirstZero s.arityBits round
  /-- and last the number of queries. -/
  noQueries_iff : p.validate = .error (.invalid .noQueries) ↔
    1 ≤ s.rateBits ∧ s.HasProximity ∧ (∀ a ∈ s.arityBits, 1 ≤ a) ∧ s.numQueries = 0
  /-- Nothing else is ever reported. -/
  error_cases : ∀ e, p.validate = .error e →
    (∃ bits, e = .invalid (.rateBits bits)) ∨ (∃ m, e = .invalid (.proximity m)) ∨
      (∃ round, e = .invalid (.noFolding round)) ∨ e = .invalid .noQueries

/-- **How validation judges any schedule that gives an instance**, over any field. -/
theorem judges (h : s.params = .ok p) : s.Judges p := by
  have hvalidate := (describes_of_params h).validate_eq
  by_cases hrate : s.rateBits = 0
  · rw [if_pos hrate] at hvalidate
    constructor <;> simp [hvalidate, hrate, eq_comm]
  have hrate' : 1 ≤ s.rateBits := one_le_iff.mpr hrate
  rw [if_neg hrate] at hvalidate
  by_cases hm : s.HasProximity
  · rw [if_pos hm] at hvalidate
    cases hround : s.arityBits.findIdx? (· == 0) with
    | some i =>
      have hzero : ¬∀ a ∈ s.arityBits, 1 ≤ a := by simp [← findIdx?_eq_none_iff_one_le, hround]
      rw [hround] at hvalidate
      constructor <;> simp [hvalidate, hrate, hrate', hm, hzero, firstZero_iff_eq hround]
    | none =>
      have hall := eq_true (findIdx?_eq_none_iff_one_le.mp hround)
      have hnone := not_firstZero hround
      rw [hround] at hvalidate
      by_cases hqueries : s.numQueries = 0
      · constructor <;> simp [hvalidate, hrate, hrate', hm, hqueries, hall, hnone]
      · have hqueries' : 1 ≤ s.numQueries := one_le_iff.mpr hqueries
        constructor <;> simp [hvalidate, hrate, hrate', hm, hqueries, hqueries', hall, hnone]
  · rw [if_neg hm] at hvalidate
    constructor <;> simp [hvalidate, hrate, hrate', hm, eq_comm]

/-- A schedule with a round that does not fold, and without queries. -/
def idleSchedule : Schedule Binary64 :=
  { shortSchedule with arityBits := [3, 0, 2, 0], numQueries := 0 }

/-- The round is what is reported. -/
theorem judges_idleSchedule :
    (∃ p, shortSchedule.params = .ok p ∧ p.validate = .ok ()) ∧
      ∃ p, idleSchedule.params = .ok p ∧ p.validate = .error (.invalid (.noFolding 1)) := by
  have hm : shortSchedule.HasProximity ∧ idleSchedule.HasProximity := by decide +kernel
  have hfolds : ∀ a ∈ shortSchedule.arityBits, 1 ≤ a := findIdx?_eq_none_iff_one_le.mp rfl
  have hfirst : FirstZero idleSchedule.arityBits 1 := findIdx?_eq_some_iff_firstZero.mp rfl
  obtain ⟨p, hp, -⟩ := exists_params_of_le (s := shortSchedule) (by decide)
    CurveField.fr.sizeBits_le
  obtain ⟨q, hq, -⟩ := exists_params_of_le (s := idleSchedule) (by decide) CurveField.fr.sizeBits_le
  exact ⟨⟨p, hp, (judges hp).ok_iff.mpr ⟨by decide, hm.1, hfolds, by decide⟩⟩,
    q, hq, ((judges hq).noFolding_iff 1).mpr ⟨by decide, hm.2, hfirst⟩⟩

end Schedule

end FriBound
