import FriBound.Proofs.ExactBound
import FriBound.Proofs.PowerError
import FriBound.Proofs.ValidBound

/-!
# Accurate elementary functions

The elementary functions of a library are off by at most one unit in the last place. For a result
`t` that is at most `eps * |t|`, or a unit at the end of the format. Nothing more is asked of them
here (`Elementary.Accurate`).

The parameters are read exactly by reading `m` as the real number that it is. The exact terms are
what both rounded evaluations are compared with.

## Main definitions

* `Elementary.Accurate` — what is asked of elementary functions
* `Params.exactly` — the parameters with an exact `m`

## Main results

* `near_of_accurate` — such a result is near the exact one, if that has room for 53 digits
-/

namespace FriBound

open Binary64 (unit toReal)

/-- Finite results of the elementary functions are off by one unit in the last place at most. -/
structure Elementary.Accurate (E : Elementary) : Prop where
  exp2_sub_le : ∀ x : Binary64, x.isFinite = true → (E.exp2 x).isFinite = true →
    |(E.exp2 x).toReal - 2 ^ x.toReal| ≤ eps * 2 ^ x.toReal + unit
  exp2_negInf : E.exp2 (.inf true) = .zero false
  log2_sub_le : ∀ x : Binary64, x.isFinite = true → (Binary64.zero false).lt x = true →
    |(E.log2 x).toReal - Real.logb 2 x.toReal| ≤ eps * |Real.logb 2 x.toReal| + unit
  pow_sub_le : ∀ x y : Binary64, x.isFinite = true → (Binary64.zero false).lt x = true →
    y.isFinite = true → (E.pow x y).isFinite = true →
    |(E.pow x y).toReal - x.toReal ^ y.toReal| ≤ eps * x.toReal ^ y.toReal + unit

namespace Params

/-- The parameters, with `m` read as a real number. -/
noncomputable def exactly (p : Params Binary64) : Params EReal where
  numFunctions := p.numFunctions
  rateBits := p.rateBits
  codewordSizeBits := p.codewordSizeBits
  m := (p.m.toReal : EReal)
  arityBits := p.arityBits
  numRounds := p.numRounds
  fieldSizeBits := p.fieldSizeBits
  numQueries := p.numQueries

end Params

/-- **A result with room for 53 digits is near the exact one.** -/
theorem near_of_accurate {a t : ℝ} (ht : 0 ≤ t) (hlow : 2 ^ 52 * unit ≤ t)
    (h : |a - t| ≤ eps * t + unit) : Near (4 * eps) a t := by
  have hunit : unit ≤ eps * t := by
    rw [eps_eq, one_div_mul_eq_div, le_div_iff₀ (by positivity)]
    linarith
  have hd : 2 * eps ≤ 1 / 4 := by
    rw [eps_eq]
    norm_num
  have hrel : |a - t| ≤ 2 * eps * t := by linarith
  have hcost : 2 * (2 * eps) = 4 * eps := by ring
  exact hcost ▸ Near.of_abs_sub_le ht (mul_pos two_pos eps_pos).le hd hrel

end FriBound
