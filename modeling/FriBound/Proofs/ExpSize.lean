import FriBound.Proofs.Exp2Size

/-!
# The size of the exponential

The argument is measured in steps of a `128`th part of `ln 2`. The nearest whole number of steps
gives the table entry, and what is left is half a step or little more, the second part of the
argument and all roundings included. The polynomial then adds less than `3 / 1000` to one, so the
exponential is as large as its table entry says.

The steps are subtracted in two parts, whose sum is a rounded number as well. How far it is off
counts once for each step, and the kernel computes it from the constants (`exp_constants_fit`).

## Main results

* `Binary64.steps_spec` — the number of steps
* `Binary64.approx_expRemainder` — what is left after them
* `Binary64.expParts_spec` — the size of the exponential, and its opposite
-/

namespace FriBound

open Binary64 (toReal)

variable {ρ : ℝ} {r x : Binary64}

/-! ### The exponent -/

/-- The polynomial of the exponential, with a rounding at each step. -/
theorem approx_expPolynomial {t a b c d : Binary64} (hr : Approx (2844 / 1000000) (1 / 2 ^ 38) ρ r)
    (ht : |t.toReal| ≤ 1 / 2 ^ 40) (htfin : t.isFinite = true)
    (hc : ∀ v ∈ [a, b, c, d], v.isFinite = true ∧ |v.toReal| ≤ 1 / 2) :
    (t + r + r * r * (a + r * b) + r * r * (r * r) * (c + r * d)).isFinite = true ∧
      |(t + r + r * r * (a + r * b) + r * r * (r * r) * (c + r * d)).toReal| ≤ 2945 / 1000000 := by
  simp only [List.forall_mem_cons] at hc
  obtain ⟨⟨ha, ha'⟩, ⟨hb, hb'⟩, ⟨hc, hc'⟩, ⟨hd, hd'⟩, -⟩ := hc
  have hsquare := hr.mul hr (d := 9 / 1000000) (g := 1 / 2 ^ 40) (by norm_num)
  have hfourth := hsquare.mul hsquare (d := 1 / 2 ^ 30) (g := 1 / 2 ^ 50) (by norm_num)
  have hlinear : ∀ {u v : Binary64}, u.isFinite = true → |u.toReal| ≤ 1 / 2 → v.isFinite = true →
      |v.toReal| ≤ 1 / 2 →
        Approx (51 / 100) (1 / 2 ^ 30) (u.toReal + ρ * v.toReal) (u + r * v) := by
    intro u v hu hu' hv hv'
    exact (Approx.exact hu hu').add
      (hr.mul (.exact hv hv') (d := 1 / 500) (g := 1 / 2 ^ 37) (by norm_num)) (by norm_num)
  have hsecond := hsquare.mul (hlinear ha ha' hb hb') (d := 5 / 1000000) (g := 1 / 2 ^ 39)
    (by norm_num)
  have hthird := hfourth.mul (hlinear hc hc' hd hd') (d := 1 / 2 ^ 30) (g := 1 / 2 ^ 49)
    (by norm_num)
  have hfirst := (Approx.exact htfin ht).add hr (d := 2845 / 1000000) (g := 1 / 2 ^ 37)
    (by norm_num)
  have htotal := (hfirst.add hsecond (d := 2851 / 1000000) (g := 1 / 2 ^ 35) (by norm_num)).add
    hthird (d := 2852 / 1000000) (g := 1 / 2 ^ 34) (by norm_num)
  exact ⟨htotal.isFinite, htotal.abs_toReal_le.trans (by norm_num)⟩

namespace Binary64

open LnExp

theorem exp_constants_fit :
    (∀ c ∈ [d₂, d₃, d₄, d₅], c.isFinite = true ∧ |c.toRat| ≤ 1 / 2) ∧
    (stepsPerE.isFinite = true ∧ 184 ≤ stepsPerE.toRat ∧ stepsPerE.toRat ≤ 185) ∧
    (stepHigh.isFinite = true ∧ |stepHigh.toRat| ≤ 1 / 128) ∧
      (stepLow.isFinite = true ∧ |stepLow.toRat| ≤ 1 / 2 ^ 40) ∧
    |stepsPerE.toRat * (stepHigh.toRat + stepLow.toRat) + 1| ≤ 1 / 2 ^ 45 ∧
      |stepsPerE.toRat * ln2High.toRat - 128| ≤ 1 / 2 ^ 30 := by
  decide +kernel

theorem le_stepsPerE : (184 : ℝ) ≤ stepsPerE.toRat := by exact_mod_cast exp_constants_fit.2.1.2.1

theorem stepsPerE_le : (stepsPerE.toRat : ℝ) ≤ 185 := by exact_mod_cast exp_constants_fit.2.1.2.2

/-- The nearest whole number is at most a half away. -/
theorem abs_nearestInt_sub_le (hx : x.isFinite = true) :
    |(x.nearestInt 0 : ℝ) - x.toReal| ≤ 1 / 2 := by
  obtain ⟨a, ha, -⟩ := isFinite_iff_place.mp hx
  have hnear := nearestInt_sub_le hx ha 0
  rw [pow_zero, Nat.cast_one, Int.mul_one] at hnear
  have hcast : 2 * |(x.nearestInt 0 * unitsPerOne - a : ℝ)| ≤ unitsPerOne := by
    have hint : 2 * |x.nearestInt 0 * unitsPerOne - a| ≤ (unitsPerOne : ℤ) := by
      rw [Int.abs_eq_natAbs]
      exact_mod_cast hnear
    exact_mod_cast hint
  have hvalue : (x.nearestInt 0 : ℝ) - x.toReal = (x.nearestInt 0 * unitsPerOne - a) * unit := by
    rw [toReal_of_place ha hx, sub_mul, mul_assoc, unitsPerOne_mul_unit, mul_one]
  rw [hvalue, abs_mul, abs_of_pos unit_pos]
  linarith [mul_le_mul_of_nonneg_right hcast unit_pos.le, unitsPerOne_mul_unit]

/-- The number of steps is the nearest whole number, nearly. -/
theorem steps_spec (hx : x.isFinite = true) (hsize : |x.toReal| ≤ 1024) :
    |((stepsPerE * x).nearestInt 0 : ℝ) - stepsPerE.toRat * x.toReal| ≤ 1 / 2 + 1 / 2 ^ 20 ∧
      ((stepsPerE * x).nearestInt 0).natAbs ≤ 190000 := by
  obtain ⟨-, ⟨hfin, hlow, hhigh⟩, -⟩ := exp_constants_fit
  have hsteps := approx_toRat (c := 185) ⟨hfin, (abs_of_nonneg (by linarith)).trans_le hhigh⟩
    (by norm_num)
  have hprod := hsteps.mul (.exact hx hsize) (d := 189440) (g := 1 / 2 ^ 20) (by norm_num)
  have hnear := abs_nearestInt_sub_le hprod.isFinite
  have hsteps' := abs_sub_le ((stepsPerE * x).nearestInt 0 : ℝ) (stepsPerE * x).toReal
    (stepsPerE.toRat * x.toReal)
  refine ⟨by linarith [hprod.error], ?_⟩
  have hle : |((stepsPerE * x).nearestInt 0 : ℝ)| ≤ 190000 := by
    linarith [hprod.error, hprod.size, abs_sub_abs_le_abs_sub ((stepsPerE * x).nearestInt 0 : ℝ)
      (stepsPerE.toRat * x.toReal)]
  rw [← Int.cast_abs, ← Nat.cast_natAbs] at hle
  exact_mod_cast hle

/-- What the steps leave of a number is half a step, and what the length of a step is off for each
step. -/
theorem abs_left_le {t : ℝ} {k : ℤ} (hk : |(k : ℝ) - stepsPerE.toRat * t| ≤ 1 / 2 + 1 / 2 ^ 20)
    (hk' : |(k : ℝ)| ≤ 190000) :
    |t + k * stepHigh.toRat + k * stepLow.toRat| ≤ 2718 / 1000000 := by
  have hunit : |(stepsPerE.toRat : ℝ) * (stepHigh.toRat + stepLow.toRat) + 1| ≤ 1 / 2 ^ 45 := by
    have hcast : ((|stepsPerE.toRat * (stepHigh.toRat + stepLow.toRat) + 1| : ℚ) : ℝ) ≤
        (1 / 2 ^ 45 : ℚ) := Rat.cast_le.mpr exp_constants_fit.2.2.2.2.1
    push_cast at hcast
    exact hcast
  have hσ := le_stepsPerE
  generalize (stepsPerE.toRat : ℝ) = σ at *
  generalize (stepHigh.toRat : ℝ) = η at *
  generalize (stepLow.toRat : ℝ) = μ at *
  have hscaled : σ * (t + k * η + k * μ) = -(k - σ * t) + k * (σ * (η + μ) + 1) := by ring
  have hlost : |k * (σ * (η + μ) + 1)| ≤ 190000 * (1 / 2 ^ 45) := by
    rw [abs_mul]
    linarith [mul_le_mul_of_nonneg_right hk' (abs_nonneg (σ * (η + μ) + 1))]
  have hsum : |σ * (t + k * η + k * μ)| ≤ 5001 / 10000 := by
    rw [hscaled]
    refine (abs_add_le _ _).trans ?_
    rw [abs_neg]
    linarith
  rw [abs_mul, abs_of_pos (by linarith : 0 < σ)] at hsum
  linarith [mul_le_mul_of_nonneg_right hσ (abs_nonneg (t + k * η + k * μ))]

/-- What is left after the steps is small, and so is what is added. -/
theorem approx_expRemainder {w : Binary64} {k : ℤ} (hx : x.isFinite = true)
    (hsize : |x.toReal| ≤ 1024) (hw : w.isFinite = true) (hw' : |w.toReal| ≤ 1 / 8000)
    (hk : |(k : ℝ) - stepsPerE.toRat * x.toReal| ≤ 1 / 2 + 1 / 2 ^ 20)
    (hk' : k.natAbs ≤ 190000) :
    Approx (2844 / 1000000) (1 / 2 ^ 38)
      (x.toReal + k * stepHigh.toRat + k * stepLow.toRat + w.toReal)
      (x + ofInt k * stepHigh + ofInt k * stepLow + w) := by
  obtain ⟨-, -, hstepHigh, hstepLow, -⟩ := exp_constants_fit
  have hcount := approx_ofInt (c := 190000) hk' (by decide) (by norm_num)
  have hhighPart := hcount.mul (approx_toRat (c := 1 / 128) hstepHigh (by norm_num)) (d := 1485)
    (g := 1 / 2 ^ 42) (by norm_num)
  have hlowPart := hcount.mul (approx_toRat (c := 1 / 2 ^ 40) hstepLow (by norm_num))
    (d := 1 / 2 ^ 22) (g := 1 / 2 ^ 74) (by norm_num)
  have hleft := abs_left_le hk hcount.size
  have hfirst := (Approx.exact hx hsize).add_of hhighPart (d := 1 / 300) (g := 1 / 2 ^ 41)
    (by
      have hshift : x.toReal + k * (stepHigh.toRat : ℝ) =
          x.toReal + k * stepHigh.toRat + k * stepLow.toRat - k * stepLow.toRat := by ring
      rw [hshift]
      refine (abs_sub _ _).trans ?_
      linarith [hlowPart.size])
    (by norm_num)
  have hsecond := hfirst.add_of hlowPart hleft (g := 1 / 2 ^ 40) (by norm_num)
  exact hsecond.add (.exact hw hw') (by norm_num)

/-- **The size of the exponential** goes by the number of steps, and a sign does not change it. -/
theorem expParts_spec {w : Binary64} (hx : x.isFinite = true) (hsize : |x.toReal| ≤ 1024)
    (hw : w.isFinite = true) (hw' : |w.toReal| ≤ 1 / 8000) :
    RoughPower ((stepsPerE * x).nearestInt 0) (expParts false x w) ∧
      Opposite (expParts false x w) (expParts true x w) := by
  obtain ⟨hk, hk'⟩ := steps_spec hx hsize
  have hr := approx_expRemainder hx hsize hw hw' hk hk'
  rw [expParts, expParts]
  generalize (stepsPerE * x).nearestInt 0 = k at *
  obtain ⟨htailfin, htail⟩ := correction_spec k
  have hcoef : ∀ v ∈ [d₂, d₃, d₄, d₅], v.isFinite = true ∧ |v.toReal| ≤ 1 / 2 := by
    intro v hv
    have hfits := exp_constants_fit.1 v hv
    exact ⟨hfits.1, (approx_toReal hfits (by norm_num)).size⟩
  obtain ⟨htfin, htsize⟩ := approx_expPolynomial hr htail htailfin hcoef
  exact ⟨assemble_bounds (by omega) htfin htsize, assemble_opposite (by omega) htfin htsize⟩

end Binary64

end FriBound
