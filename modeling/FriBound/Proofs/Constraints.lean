import FriBound.Message
import FriBound.Proofs.Guards
import FriBound.Proofs.ValidSchedules

/-!
# The constraints of an instance

Each of the eight constraints demands something of a parameter, and validation passes if all of them
hold. Otherwise it complains about the first violated one, in the words for that constraint.

The evaluation for valid parameters comes after the validation and adds no refusal of its own: an
`m` that has passed is neither a zero nor infinite, so both guards of the evaluation let it through.

## Main definitions

* `Constraint.Holds` — what a constraint demands
* `Constraint.Complaint` — what is said of a violated one
* `Elementary.Checked` — what validation returns, and the evaluation after it

## Main results

* `Constraint.findSome?_refusal` — the refusal for the first violated constraint
* `Elementary.checked` — validation and the evaluation after it, for any parameters
-/

namespace FriBound

open Binary64

namespace Constraint

/-- What the constraint demands of the parameters. -/
def Holds (p : Params Binary64) : Constraint → Prop
  | functions => 1 ≤ p.numFunctions
  | rate => 1 ≤ p.rateBits.toInt
  | domain => 1 ≤ p.codewordSizeBits.toInt
  | proximity => p.m.isFinite = true ∧ (zero false).lt p.m = true
  | arities => ∀ a ∈ p.arityBits, 1 ≤ a
  | rounds => p.numRounds = p.arityBits.length
  | field => 1 ≤ p.fieldSizeBits.toInt
  | queries => 1 ≤ p.numQueries

/-- What is said when the constraint is violated. A schedule is quoted for its first round without
folding, every other parameter for its value. -/
def Complaint (p : Params Binary64) (text : String) : Constraint → Prop
  | functions => text = "num_functions should be positive"
  | rate => text = "rate_bits should be positive, got " ++ toString p.rateBits.toInt
  | domain => text = "codeword_size_bits should be positive, got " ++
      toString p.codewordSizeBits.toInt
  | proximity => text = "m should be positive and finite, got " ++ Decimal.display p.m
  | arities => ∃ round, FirstZero p.arityBits round ∧
      text = "arity_bits[" ++ toString round ++ "] should be at least 1"
  | rounds => text = "num_rounds (" ++ toString p.numRounds ++ ") mismatch arity_bits length (" ++
      toString p.arityBits.length ++ ")"
  | field => text = "field_size_bits should be positive, got " ++ toString p.fieldSizeBits.toInt
  | queries => text = "num_queries should be positive"

/-- The constraint is violated, and all before it hold. -/
def FirstViolated (p : Params Binary64) (c : Constraint) : Prop :=
  ¬c.Holds p ∧ ∃ before after, order = before ++ c :: after ∧ ∀ d ∈ before, d.Holds p

/-! ### Refusals -/

variable {p : Params Binary64} {c : Constraint}

theorem refusal?_eq_none_iff : c.refusal? p = none ↔ c.Holds p := by
  cases c with
  | functions => simp [refusal?, Holds, Nat.one_le_iff_ne_zero]
  | rate => simp [refusal?, Holds, Int.lt_iff_add_one_le]
  | domain => simp [refusal?, Holds, Int.lt_iff_add_one_le]
  | proximity =>
    have hite : ∀ {c : Prop} [Decidable c], (if c then none else some (Refusal.proximity p.m))
        = none ↔ c := by simp
    rw [Holds, ← ofInt_zero, ← Bool.and_eq_true]
    exact hite
  | arities => rw [refusal?, Option.map_eq_none_iff, findIdx?_eq_none_iff_one_le, Holds]
  | rounds => simp [refusal?, Holds]
  | field => simp [refusal?, Holds, Int.lt_iff_add_one_le]
  | queries => simp [refusal?, Holds, one_le_iff]

/-- A refusal is put in the words for its constraint. -/
theorem complaint_of_refusal {why : Refusal Binary64} (h : c.refusal? p = some why) :
    c.Complaint p why.message := by
  cases c with
  | arities =>
    -- the only one that is quoted for something that has to be searched for
    obtain ⟨round, hround, rfl⟩ := Option.map_eq_some_iff.mp h
    exact ⟨round, findIdx?_eq_some_iff_firstZero.mp hround, rfl⟩
  | _ =>
    rw [refusal?] at h
    split at h <;> cases h
    rfl

/-- The first refusal in the order of the constraints is the one for the first violated
constraint. -/
theorem findSome?_refusal {why : Refusal Binary64} :
    order.findSome? (refusal? p) = some why ↔
      ∃ c : Constraint, c.FirstViolated p ∧ c.refusal? p = some why := by
  rw [List.findSome?_eq_some_iff]
  constructor
  · rintro ⟨before, c, after, horder, hc, hbefore⟩
    have hviolated : ¬c.Holds p := by
      rw [← refusal?_eq_none_iff, hc]
      exact Option.some_ne_none why
    exact ⟨c, ⟨hviolated, before, after, horder,
      fun d hd => refusal?_eq_none_iff.mp (hbefore d hd)⟩, hc⟩
  · rintro ⟨c, ⟨-, before, after, horder, hbefore⟩, hc⟩
    exact ⟨before, c, after, horder, hc, fun d hd => refusal?_eq_none_iff.mpr (hbefore d hd)⟩

end Constraint

namespace Params

open Constraint

variable {p : Params Binary64}

theorem validate_eq_ok_iff_holds : p.validate = .ok () ↔ ∀ c : Constraint, c.Holds p := by
  rw [validate_eq_ok_iff_refusal]
  exact forall_congr' fun c => refusal?_eq_none_iff

theorem validate_eq_invalid_iff {why : Refusal Binary64} :
    p.validate = .error (.invalid why) ↔
      ∃ c : Constraint, c.FirstViolated p ∧ c.refusal? p = some why := by
  rw [validate_eq_findSome, ← findSome?_refusal]
  cases order.findSome? (refusal? p) <;> simp

/-- Validation refuses a parameter or passes. -/
theorem exists_of_validate_eq_error {e : BoundError Binary64} (h : p.validate = .error e) :
    ∃ why, e = .invalid why := by
  rw [validate_eq_findSome] at h
  split at h <;> cases h
  exact ⟨_, rfl⟩

end Params

namespace Elementary

variable {E : Elementary} {p : Params Binary64}

/-- What validation returns, and the evaluation for valid parameters. -/
structure Checked (E : Elementary) (p : Params Binary64) : Prop where
  /-- Validation accepts the parameters that satisfy every constraint. -/
  validate_eq_ok_iff : p.validate = .ok () ↔ ∀ c : Constraint, c.Holds p
  /-- It complains about the first violated constraint, -/
  validate_of_firstViolated : ∀ c : Constraint, c.FirstViolated p →
    ∃ why, p.validate = .error (.invalid why) ∧ c.Complaint p why.message
  /-- and has no other error. -/
  error_of_validate : ∀ e, p.validate = .error e → ∃ why, e = .invalid why ∧
    ∃ c : Constraint, c.FirstViolated p ∧ c.Complaint p why.message
  /-- The evaluation of valid parameters does not divide by zero, -/
  boundOfValid_ne_divisionByZero : E.boundOfValid p ≠ .error .divisionByZero
  /-- refuses what validation refuses and in its words, -/
  boundOfValid_eq_invalid_iff : ∀ why, E.boundOfValid p = .error (.invalid why) ↔
    p.validate = .error (.invalid why)
  /-- and returns what is returned without validation. -/
  boundOfValid_eq_ok_iff : ∀ v, E.boundOfValid p = .ok v ↔ p.validate = .ok () ∧ E.bound p = .ok v

/-- An `m` that has passed validation passes both guards of the evaluation, so what is left to fail
is the range. -/
theorem bound_ok_or_overflow (h : p.validate = .ok ()) :
    (∃ v, E.bound p = .ok v) ∨ ∃ what, E.bound p = .error (.overflow what) := by
  obtain ⟨hfin, hpos⟩ := Params.validate_eq_ok_iff_holds.mp h .proximity
  have hzero : ¬∃ s, p.m = .zero s := by
    rintro ⟨s, hs⟩
    rw [hs] at hpos
    cases s <;> exact absurd hpos (by decide)
  rcases terms_cases E p with ⟨hz, -⟩ | ⟨-, hf, -⟩ | ⟨-, -, -, what, -, -, ht⟩ | ⟨-, -, -, -, ht⟩
  · exact absurd hz hzero
  · rw [hfin] at hf
    cases hf
  · exact Or.inr ⟨what, bound_of_terms_error ht⟩
  · rw [bound_of_terms_ok ht]
    split
    · exact Or.inl ⟨_, rfl⟩
    · exact Or.inr ⟨_, rfl⟩

/-- **Validation reports the first violated constraint, and the evaluation after it refines the one
without it**, for any parameters and any elementary functions. -/
theorem checked (E : Elementary) (p : Params Binary64) : E.Checked p where
  validate_eq_ok_iff := Params.validate_eq_ok_iff_holds
  validate_of_firstViolated := by
    intro c hc
    obtain ⟨why, hwhy⟩ := Option.ne_none_iff_exists'.mp (mt Constraint.refusal?_eq_none_iff.mp hc.1)
    exact ⟨why, Params.validate_eq_invalid_iff.mpr ⟨c, hc, hwhy⟩,
      Constraint.complaint_of_refusal hwhy⟩
  error_of_validate := by
    intro e he
    obtain ⟨why, rfl⟩ := Params.exists_of_validate_eq_error he
    obtain ⟨c, hc, hwhy⟩ := Params.validate_eq_invalid_iff.mp he
    exact ⟨why, rfl, c, hc, Constraint.complaint_of_refusal hwhy⟩
  boundOfValid_ne_divisionByZero := by
    rw [boundOfValid_eq_match]
    cases h : p.validate with
    | error e =>
      obtain ⟨why, rfl⟩ := Params.exists_of_validate_eq_error h
      simp
    | ok =>
      rcases bound_ok_or_overflow (E := E) h with ⟨v, hv⟩ | ⟨what, hwhat⟩ <;> simp [*]
  boundOfValid_eq_invalid_iff := by
    intro why
    rw [boundOfValid_eq_match]
    cases h : p.validate with
    | error e => simp
    | ok =>
      rcases bound_ok_or_overflow (E := E) h with ⟨v, hv⟩ | ⟨what, hwhat⟩ <;> simp [*]
  boundOfValid_eq_ok_iff := by
    intro v
    rw [boundOfValid_eq_match]
    cases p.validate <;> simp

end Elementary

end FriBound
