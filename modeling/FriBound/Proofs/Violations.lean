import FriBound.Validation
import Mathlib.Data.List.Basic

/-!
# Validation, constraint by constraint

Validation has eight constraints. They are independent of each other, so several can be violated at
once, and then their order decides what is reported. Here they are named and put in a list, and the
violations turn out to be what is left of the list after the constraints that hold: the report is on
the first violated one. When validation accepts, and what it reports otherwise, follows from this
alone.

## Main definitions

* `Constraint` — the constraints, with `Constraint.order`
* `Constraint.refusal?` — the refusal for one of them

## Main results

* `Params.violations_eq_filterMap` — the violations, from the list of constraints
* `Params.validate_eq_findSome` — validation finds the first
* `Params.validate_eq_ok_iff` — what valid parameters are
-/

namespace FriBound

open Scalar

variable {α : Type} [Scalar α]

/-- What validation looks at. -/
inductive Constraint where
  | functions
  | rate
  | domain
  | proximity
  | arities
  | rounds
  | field
  | queries
  deriving DecidableEq, Repr

namespace Constraint

/-- The constraints in the order in which they are reported. -/
def order : List Constraint :=
  [.functions, .rate, .domain, .proximity, .arities, .rounds, .field, .queries]

theorem mem_order (c : Constraint) : c ∈ order := by
  cases c <;> decide

/-- The refusal for one constraint. -/
def refusal? (p : Params α) : Constraint → Option (Refusal α)
  | functions => if p.numFunctions = 0 then some .noFunctions else none
  | rate => if p.rateBits.toInt ≤ 0 then some (.rateBits p.rateBits) else none
  | domain =>
    if p.codewordSizeBits.toInt ≤ 0 then some (.codewordSizeBits p.codewordSizeBits) else none
  | proximity => if isFinite p.m && lt (ofInt 0) p.m then none else some (.proximity p.m)
  | arities => (p.arityBits.findIdx? (· == 0)).map .noFolding
  | rounds =>
    if p.numRounds = p.arityBits.length then none
    else some (.numRounds p.numRounds p.arityBits.length)
  | field => if p.fieldSizeBits.toInt ≤ 0 then some (.fieldSizeBits p.fieldSizeBits) else none
  | queries => if p.numQueries = 0 then some .noQueries else none

end Constraint

namespace Params

open Constraint

variable {p : Params α}

/-- **The violations are what is left of the list of constraints** after those that hold. -/
theorem violations_eq_filterMap : p.violations = order.filterMap (refusal? p) := by
  -- The violations of one constraint are a list of at most one entry.
  have hite : ∀ {c : Prop} [Decidable c] {why : Refusal α},
      (if c then some why else none).toList = if c then [why] else [] := by
    intro c _ why
    split <;> rfl
  have hite' : ∀ {c : Prop} [Decidable c] {why : Refusal α},
      (if c then none else some why).toList = if c then [] else [why] := by
    intro c _ why
    split <;> rfl
  rw [List.filterMap_eq_flatMap_toList]
  simp only [order, List.flatMap_cons, List.flatMap_nil, refusal?, hite, hite', Option.toList_map]
  simp only [violations, List.append_assoc, List.append_nil]

/-- **Validation finds the first refusal** in the order of the constraints. -/
theorem validate_eq_findSome (p : Params α) :
    p.validate = match order.findSome? (refusal? p) with
      | some why => .error (.invalid why)
      | none => .ok () := by
  have hfirst : p.violations.head? = order.findSome? (refusal? p) := by
    rw [violations_eq_filterMap, List.head?_filterMap]
  unfold validate
  cases h : order.findSome? (refusal? p) <;> rw [hfirst, h]

theorem validate_eq_ok_iff_refusal :
    p.validate = .ok () ↔ ∀ c : Constraint, c.refusal? p = none := by
  rw [validate_eq_findSome]
  constructor
  · intro h c
    split at h
    · cases h
    · exact List.findSome?_eq_none_iff.mp ‹_› c (mem_order c)
  · intro h
    rw [List.findSome?_eq_none_iff.mpr fun c _ => h c]

/-- Validation accepts the parameters that describe an instance. -/
theorem validate_eq_ok_iff : p.validate = .ok () ↔
    p.numFunctions ≠ 0 ∧ 0 < p.rateBits.toInt ∧ 0 < p.codewordSizeBits.toInt ∧
      (isFinite p.m = true ∧ lt (ofInt 0) p.m = true) ∧ (∀ a ∈ p.arityBits, a ≠ 0) ∧
      p.numRounds = p.arityBits.length ∧ 0 < p.fieldSizeBits.toInt ∧ p.numQueries ≠ 0 := by
  have hall : (∀ c : Constraint, c.refusal? p = none) ↔ ∀ c ∈ order, c.refusal? p = none :=
    ⟨fun h c _ => h c, fun h c => h c (mem_order c)⟩
  rw [validate_eq_ok_iff_refusal, hall]
  simp [order, refusal?]

end Params

end FriBound
