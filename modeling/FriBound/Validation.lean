import FriBound.Params
import FriBound.Error

/-!
# Validation

The formulas are evaluated for any parameters at all. `validate` is the separate check that they
describe an instance; `violations` lists all that is wrong with them, and the first of the list is
what `validate` reports.
-/

namespace FriBound.Params

open Scalar

variable {α : Type} [Scalar α]

/-- All violated constraints, in the order of their importance. A schedule is listed once, for its
first round without folding. -/
def violations (p : Params α) : List (Refusal α) :=
  (if p.numFunctions = 0 then [Refusal.noFunctions] else [])
  ++ (if p.rateBits.toInt ≤ 0 then [Refusal.rateBits p.rateBits] else [])
  ++ (if p.codewordSizeBits.toInt ≤ 0 then [Refusal.codewordSizeBits p.codewordSizeBits] else [])
  ++ (if isFinite p.m && lt (ofInt 0) p.m then [] else [Refusal.proximity p.m])
  ++ (p.arityBits.findIdx? (· == 0)).toList.map Refusal.noFolding
  ++ (if p.numRounds = p.arityBits.length then []
      else [Refusal.numRounds p.numRounds p.arityBits.length])
  ++ (if p.fieldSizeBits.toInt ≤ 0 then [Refusal.fieldSizeBits p.fieldSizeBits] else [])
  ++ (if p.numQueries = 0 then [Refusal.noQueries] else [])

/-- Accepts exactly the parameters without a violated constraint. -/
def validate (p : Params α) : Except (BoundError α) Unit :=
  match p.violations.head? with
  | some why => .error (.invalid why)
  | none => .ok ()

end FriBound.Params
