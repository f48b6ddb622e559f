import FriBound.Proofs.ExpSize
import FriBound.Proofs.LnParts
import FriBound.Proofs.QuerySign

/-!
# The size of powers

The general power is `exp (y * ln x)`. Little is asked of its size, but that at every number: a
power has the sign that its exponent gives it, and the powers `3 / 2` of rates are ordered as the
rates are.

The sign is that of the exponential, which must not depend on how large the argument is. A tiny
argument leaves one, a large one gives zero or infinity, and in between the product with the
exponent has been formed in two parts, of which the second is too small to matter
(`mulParts_rest_le`).

The power `3 / 2` of `2 ^ j` is `2 ^ (3 / 2 * j)`, which for an odd `j` is not a number of the
format. The argument of the exponential is close to `192 * j` steps of its table, so that the table
entry is the one for the exact power, and the result is between powers of two that depend on `j`
alone. The bounds for one `j` end where those for the next one begin, which is all that the order of
the powers needs. So the functions of this library obey the laws that the evaluation asks for, each
of them proved of the tables and polynomials themselves.

## Main results

* `Binary64.mulParts_spec` — the product with the exponent, in two parts
* `Binary64.ofSign_exp` — the sign of the exponential
* `Binary64.pow_twoPow_bounds` — the power `3 / 2` of a power of two
* `Binary64.zero_le_pow`, `Binary64.ofSign_pow` — the sign of powers
* `Elementary.powLaws_tabulated`, `Elementary.rateLaws_tabulated`, `Elementary.powSign_tabulated` —
  the laws for the functions of this library
-/

namespace FriBound

namespace Binary64

variable {x y w high low : Binary64} {m : Magnitude} {j : ℤ}

/-! ### The product with the exponent -/

/-- A number, its leading digits and the others. -/
theorem approx_leading {a : ℝ} (hx : x.isFinite = true) (ha : |x.toReal| ≤ a) (hsize : a ≤ 2 ^ 63) :
    |x.toReal - (x.leading 27).toReal| ≤ a / 2 ^ 25 + 1 / 2 ^ 150 ∧
      Approx (a + (a / 2 ^ 25 + 1 / 2 ^ 150)) 0 (x.leading 27).toReal (x.leading 27) ∧
        Approx (5 / 4 * (a / 2 ^ 25 + 1 / 2 ^ 150)) 0 (x - x.leading 27).toReal
          (x - x.leading 27) := by
  have hX := Approx.exact hx ha
  have hnonneg := hX.size_nonneg
  have hcut : |x.toReal - (x.leading 27).toReal| ≤ a / 2 ^ 25 + 1 / 2 ^ 150 := by
    have hunit := two_pow_mul_unit_le (k := 200) (t := 1) zero_lt_one (by norm_num)
    linarith [toReal_sub_leading_le hx 27]
  have hlead := hX.of_near (isFinite_leading hx 27) hcut le_rfl
  have hrest := hX.sub_of hlead hcut (g := (a / 2 ^ 25 + 1 / 2 ^ 150) / 2 ^ 53)
    ⟨by linarith, by linarith, by linarith⟩
  exact ⟨hcut, hlead, .exact hrest.isFinite (hrest.abs_toReal_le.trans (by linarith))⟩

/-- The leading part of the product is near it, and the rest is far smaller. -/
theorem mulParts_spec (h : TwoParts high low) (hy : y.isFinite = true)
    (hsize : |y.toReal| ≤ 2 ^ 63) :
    ((mulParts y high low).1.isFinite = true ∧
      |(mulParts y high low).1.toReal - y.toReal * high.toReal| ≤
        |y.toReal * high.toReal| / 2 ^ 22 + 1 / 2 ^ 60) ∧
    (mulParts y high low).2.isFinite = true ∧
      |(mulParts y high low).2.toReal| ≤ |y.toReal * high.toReal| / 2 ^ 23 + 1 / 2 ^ 60 := by
  obtain ⟨hhigh, hlow, hb, hsmall⟩ := h
  obtain ⟨hcut, hV, hv⟩ := approx_leading hy le_rfl hsize
  obtain ⟨hcut', hU, hu⟩ := approx_leading hhigh le_rfl (by linarith)
  rw [mulParts, abs_mul]
  dsimp only
  obtain ⟨a, ha⟩ : ∃ a, |y.toReal| = a := ⟨_, rfl⟩
  obtain ⟨b, hb'⟩ : ∃ b, |high.toReal| = b := ⟨_, rfl⟩
  have hY := Approx.exact hy ha.le
  rw [ha] at hsize hcut hV hv ⊢
  rw [hb'] at hb hcut' hU hu hsmall ⊢
  have ha0 := hY.size_nonneg
  have hb0 : 0 ≤ b := hb' ▸ abs_nonneg _
  have hprod : a * b ≤ 2 ^ 63 * 1025 := by gcongr
  have hprod0 : 0 ≤ a * b := by positivity
  generalize y.leading 27 = v at *
  generalize high.leading 27 = u at *
  have hX := hV.mul hU (d := 2 * (a * b) + 1 / 2 ^ 80) (g := a * b / 2 ^ 50 + 1 / 2 ^ 90)
    ⟨by linarith, by linarith, by linarith, by linarith⟩
  -- The rest is formed of the other digits.
  have hfirst := hv.mul hU (d := 3 / 2 * (a * b / 2 ^ 25) + 1 / 2 ^ 80)
    (g := a * b / 2 ^ 70 + 1 / 2 ^ 90) ⟨by linarith, by linarith, by linarith, by linarith⟩
  have hdigits := hu.add (.exact hlow hsmall) (d := 11 / 8 * (b / 2 ^ 25) + 1 / 2 ^ 149)
    (g := b / 2 ^ 70 + 1 / 2 ^ 150) ⟨by linarith, by linarith, by linarith⟩
  have hdigits' := Approx.exact hdigits.isFinite
    (hdigits.abs_toReal_le.trans (by linarith : _ ≤ 23 / 16 * (b / 2 ^ 25) + 1 / 2 ^ 148))
  have hsecond := hY.mul hdigits' (d := 3 / 2 * (a * b / 2 ^ 25) + 1 / 2 ^ 80)
    (g := a * b / 2 ^ 70 + 1 / 2 ^ 90) ⟨by linarith, by linarith, by linarith, by linarith⟩
  have hrest := hfirst.add hsecond (d := 3 * (a * b / 2 ^ 25) + 1 / 2 ^ 79)
    (g := a * b / 2 ^ 60 + 1 / 2 ^ 80) ⟨by linarith, by linarith, by linarith⟩
  refine ⟨⟨hX.isFinite, ?_⟩, hrest.isFinite, hrest.abs_toReal_le.trans (by linarith)⟩
  have hleft : |(y.toReal - v.toReal) * u.toReal| ≤
      (a / 2 ^ 25 + 1 / 2 ^ 150) * (b + (b / 2 ^ 25 + 1 / 2 ^ 150)) := by
    rw [abs_mul]
    gcongr
    exact hU.size
  have hright : |y.toReal * (high.toReal - u.toReal)| ≤ a * (b / 2 ^ 25 + 1 / 2 ^ 150) := by
    rw [abs_mul, ha]
    exact mul_le_mul_of_nonneg_left hcut' ha0
  have hsplit : (v * u).toReal - y.toReal * high.toReal = (v * u).toReal - v.toReal * u.toReal -
      ((y.toReal - v.toReal) * u.toReal + y.toReal * (high.toReal - u.toReal)) := by ring
  rw [hsplit]
  refine (abs_sub _ _).trans ?_
  linarith [hX.error, abs_add_le ((y.toReal - v.toReal) * u.toReal)
    (y.toReal * (high.toReal - u.toReal))]

/-- Where the product is within the range of the exponential, so is the rest. -/
theorem mulParts_rest_le (h : TwoParts high low) (hy : y.isFinite = true)
    (hsize : |y.toReal| ≤ 2 ^ 63) (hle : |(mulParts y high low).1.toReal| ≤ 1024) :
    |(mulParts y high low).2.toReal| ≤ 1 / 8000 := by
  obtain ⟨⟨-, hnear⟩, -, hrest⟩ := mulParts_spec h hy hsize
  have hback := abs_sub_abs_le_abs_sub (y.toReal * high.toReal) (mulParts y high low).1.toReal
  rw [abs_sub_comm] at hback
  linarith

/-! ### The sign of the exponential -/

theorem Opposite.ofSign {x' : Binary64} (h : Opposite x x') (hx : zero false ≤ x) :
    OfSign true x' := by
  obtain ⟨a, ha, ha'⟩ := h
  obtain ⟨b, hb, hb0⟩ := zero_le_iff_place.mp hx
  obtain rfl := place_inj ha hb
  exact le_zero_iff_place.mpr ⟨_, ha', by omega⟩

theorem RoughPower.nonneg {k : ℤ} (h : RoughPower k x) : zero false ≤ x :=
  le_trans (twoPow_nonneg _) h.half_le

/-- The three ranges of the exponential. -/
theorem exp_cases (neg : Bool) (hx : x.isFinite = true) (w : Binary64) :
    (|x.toReal| ≤ 1 / 2 ^ 54 ∧ exp neg x w = if neg then -(ofInt 1 + x) else ofInt 1 + x) ∨
      (1024 ≤ |x.toReal| ∧ exp neg x w = if x.isNegative then zero neg else inf neg) ∨
        |x.toReal| ≤ 1024 ∧ exp neg x w = expParts neg x w := by
  have hword : (ofInt 1024).isFinite = true :=
    Within.isFinite (e := 10) (Within.ofInt (by decide)) (by decide)
  have hlarge : (ofInt 1024).toReal = 1024 := by
    rw [toReal_ofInt (by decide)]
    norm_num
  rw [exp]
  split
  · have hpow : (twoPow (-54)).isFinite = true := isFinite_twoPow (by decide) (by decide)
    exact .inl ⟨toReal_twoPow_neg_54 ▸ abs_toReal_le_of_abs_lt hx hpow ‹_›, rfl⟩
  split
  · rename_i hge
    exact .inr (.inl ⟨hlarge ▸ le_abs_toReal_of_not_abs_lt hx hword (by simpa using hge), rfl⟩)
  · rename_i hlt
    exact .inr (.inr ⟨hlarge ▸ abs_toReal_le_of_abs_lt hx hword (by simpa using hlt), rfl⟩)

/-- **The exponential has the sign that it is given.** -/
theorem ofSign_exp (neg : Bool) (hx : x.isFinite = true) (hw : w.isFinite = true)
    (hsmall : |x.toReal| ≤ 1024 → |w.toReal| ≤ 1 / 8000) : OfSign neg (exp neg x w) := by
  rcases exp_cases neg hx w with ⟨hle, hexp⟩ | ⟨-, hexp⟩ | ⟨hle, hexp⟩
  · have hone : zero false ≤ ofInt 1 + x := by
      refine le_add_of_toReal_le isFinite_one hx rfl ?_
      rw [toReal_zero, toReal_one]
      linarith [(abs_le.mp hle).1]
    rw [hexp]
    cases neg with
    | false => exact hone
    | true => exact le_trans (neg_le_neg hone) (by decide)
  · rw [hexp]
    split
    · exact ofSign_isNegative (x := zero neg) (by simp [zero])
    · exact ofSign_isNegative (x := inf neg) (by simp)
  · obtain ⟨hpower, hopposite⟩ := expParts_spec hx hle hw (hsmall hle)
    rw [hexp]
    cases neg with
    | false => exact hpower.nonneg
    | true => exact hopposite.ofSign hpower.nonneg

/-! ### The exponential near a power of two -/

/-- Between the numbers of steps for `2 ^ (3 / 2 * j)`, there are powers of two. -/
theorem RoughPower.bounds (h : RoughPower (192 * j) x) :
    twoPow ((3 * j + 1) / 2 - 1) ≤ x ∧ x ≤ twoPow (3 * j / 2 + 1) := by
  have hwhole : 192 * j / 128 = 3 * j / 2 := by omega
  obtain ⟨hlow, hhalf, hhigh⟩ := h
  rw [hwhole] at hlow hhalf hhigh
  refine ⟨?_, hhigh⟩
  rcases Int.emod_two_eq_zero_or_one j with heven | hodd
  · rwa [show (3 * j + 1) / 2 = 3 * j / 2 by omega]
  · rw [show (3 * j + 1) / 2 - 1 = 3 * j / 2 by omega]
    exact hhalf (by omega)

open LnExp

/-- A whole number within less than one of another is the same. -/
theorem eq_of_abs_cast_sub_lt {n k : ℤ} {t : ℝ} (h : |(n : ℝ) - t| + |t - k| < 1) : n = k := by
  have hdist : |(n : ℝ) - k| < 1 := (abs_sub_le _ t _).trans_lt h
  have hint : |n - k| < 1 := by exact_mod_cast hdist
  have := abs_lt.mp hint
  omega

/-- Out of range, the sign of the argument is that of the number of steps, which is large. -/
theorem steps_of_large (hx : x.isFinite = true) (hlarge : 1024 ≤ |x.toReal|)
    (hnear : |stepsPerE.toRat * x.toReal - 192 * j| ≤ 2 / 5) :
    if x.isNegative then j ≤ -981 else 981 ≤ j := by
  have hσ := le_stepsPerE
  have hsign := ofSign_isNegative (ne_nan_of_isFinite hx)
  generalize (stepsPerE.toRat : ℝ) = σ at *
  obtain ⟨hd, hd'⟩ := abs_le.mp hnear
  have hprod := mul_le_mul_of_nonneg_left hlarge (by linarith : 0 ≤ σ)
  cases hneg : x.isNegative with
  | true =>
    rw [hneg] at hsign
    have hx0 := toReal_le_toReal (y := zero false) hsign hx rfl
    rw [toReal_zero] at hx0
    rw [abs_of_nonpos hx0] at hprod
    have hle : (j : ℝ) ≤ (-981 : ℤ) := by
      push_cast
      linarith
    exact Int.cast_le.mp hle
  | false =>
    rw [hneg] at hsign
    rw [abs_of_nonneg (toReal_nonneg hsign hx)] at hprod
    have hle : ((981 : ℤ) : ℝ) ≤ j := by
      push_cast
      linarith
    exact Int.cast_le.mp hle

/-- If the argument is about as many steps, its exponential is between powers of two. -/
theorem exp_bounds (hj : j ≠ 0) (hx : x.isFinite = true) (hw : w.isFinite = true)
    (hsmall : |x.toReal| ≤ 1024 → |w.toReal| ≤ 1 / 8000)
    (hnear : |stepsPerE.toRat * x.toReal - 192 * j| ≤ 2 / 5) :
    twoPow ((3 * j + 1) / 2 - 1) ≤ exp false x w ∧ exp false x w ≤ twoPow (3 * j / 2 + 1) := by
  rcases exp_cases false hx w with ⟨htiny, -⟩ | ⟨hlarge, hexp⟩ | ⟨hle, hexp⟩
  · -- An argument that is not even one step is tiny, and `j` is not zero.
    have hσ := le_stepsPerE
    have hσ' := stepsPerE_le
    generalize (stepsPerE.toRat : ℝ) = σ at *
    have hprod : |σ * x.toReal| ≤ 185 * (1 / 2 ^ 54) := by
      rw [abs_mul, abs_of_pos (by linarith)]
      gcongr
    have hzero : (0 : ℤ) = 192 * j := by
      refine eq_of_abs_cast_sub_lt (t := σ * x.toReal) ?_
      rw [Int.cast_zero, zero_sub, abs_neg]
      push_cast
      linarith
    omega
  · have hsteps := steps_of_large hx hlarge hnear
    rw [hexp]
    split at hsteps
    · rw [if_pos ‹_›, twoPow_of_small (by omega)]
      exact ⟨zero_le_zero, twoPow_nonneg _⟩
    · rw [if_neg ‹_›, twoPow_of_large (n := 3 * j / 2 + 1) (by omega)]
      exact ⟨le_inf (ne_nan_of_le (twoPow_nonneg _)).2, le_inf (by simp)⟩
  · have hpower := (expParts_spec hx hle hw (hsmall hle)).1
    obtain ⟨hk, -⟩ := steps_spec hx hle
    have heq : (stepsPerE * x).nearestInt 0 = 192 * j := by
      refine eq_of_abs_cast_sub_lt (t := stepsPerE.toRat * x.toReal) ?_
      push_cast
      linarith
    rw [heq] at hpower
    rw [hexp]
    exact hpower.bounds

/-! ### Powers by the formula -/

theorem powFormula_eq (neg : Bool) (m : Magnitude) (y : Binary64) :
    powFormula neg m y =
      exp neg (mulParts y (lnParts (normalForm m).1 (normalForm m).2).1
          (lnParts (normalForm m).1 (normalForm m).2).2).1
        (mulParts y (lnParts (normalForm m).1 (normalForm m).2).1
          (lnParts (normalForm m).1 (normalForm m).2).2).2 :=
  rfl

theorem twoParts_lnParts (hm : m.units ≠ 0) :
    TwoParts (lnParts (normalForm m).1 (normalForm m).2).1
      (lnParts (normalForm m).1 (normalForm m).2).2 := by
  have hbounds := normalForm_exponent_bounds hm
  exact lnParts_spec (normalForm_bounds hm) (by omega)

/-- A power by the formula has the sign that it is given. -/
theorem ofSign_powFormula (neg : Bool) (hm : m.units ≠ 0) (hy : y.isFinite = true)
    (hsize : |y.toReal| ≤ 2 ^ 63) : OfSign neg (powFormula neg m y) := by
  have hparts := twoParts_lnParts hm
  obtain ⟨⟨hx, -⟩, hw, -⟩ := mulParts_spec hparts hy hsize
  rw [powFormula_eq]
  exact ofSign_exp neg hx hw (mulParts_rest_le hparts hy hsize)

/-- The product of the exponent `3 / 2` and a logarithm, in steps. -/
theorem abs_steps_sub_le {u h : ℝ} (hu : |u - 3 / 2 * h| ≤ 1 / 2500)
    (hh : |h - j * ln2High.toRat| ≤ 1 / 1000) (hj : j.natAbs ≤ 1074) :
    |stepsPerE.toRat * u - 192 * j| ≤ 2 / 5 := by
  obtain ⟨-, -, -, -, -, hunit⟩ := exp_constants_fit
  have hunit' : |(stepsPerE.toRat : ℝ) * ln2High.toRat - 128| ≤ 1 / 2 ^ 30 := by
    have hcast : ((|stepsPerE.toRat * ln2High.toRat - 128| : ℚ) : ℝ) ≤ (1 / 2 ^ 30 : ℚ) :=
      Rat.cast_le.mpr hunit
    push_cast at hcast
    exact hcast
  have hσ := le_stepsPerE
  have hσ' := stepsPerE_le
  have hj' := abs_cast_le (c := 1074) hj (by norm_num)
  generalize (stepsPerE.toRat : ℝ) = σ at *
  generalize (ln2High.toRat : ℝ) = η at *
  have hsplit : σ * u - 192 * j =
      σ * (u - 3 / 2 * h) + 3 / 2 * (σ * (h - j * η)) + 3 / 2 * (j * (σ * η - 128)) := by ring
  have hfirst : |σ * (u - 3 / 2 * h)| ≤ 185 * (1 / 2500) := by
    rw [abs_mul, abs_of_pos (by linarith)]
    gcongr
  have hsecond : |σ * (h - j * η)| ≤ 185 * (1 / 1000) := by
    rw [abs_mul, abs_of_pos (by linarith)]
    gcongr
  have hthird : |j * (σ * η - 128)| ≤ 1074 * (1 / 2 ^ 30) := by
    rw [abs_mul]
    gcongr
  rw [hsplit]
  obtain ⟨h₁, h₁'⟩ := abs_le.mp hfirst
  obtain ⟨h₂, h₂'⟩ := abs_le.mp hsecond
  obtain ⟨h₃, h₃'⟩ := abs_le.mp hthird
  exact abs_le.mpr ⟨by linarith, by linarith⟩

/-- And the power `3 / 2` of a power of two is between powers of two. -/
theorem powFormula_bounds (hm : m.units = 2 ^ (j + places).toNat) (hlow : -1074 ≤ j)
    (hhigh : j ≤ 1023) (hj : j ≠ 0) :
    twoPow ((3 * j + 1) / 2 - 1) ≤ powFormula false m (ofHalves 3) ∧
      powFormula false m (ofHalves 3) ≤ twoPow (3 * j / 2 + 1) := by
  have hunits : m.units ≠ 0 := by
    rw [hm]
    exact (Nat.two_pow_pos _).ne'
  have hnormal : normalForm m = (2 ^ 52, j) := by
    rw [normalForm_of_two_pow hm, Int.toNat_of_nonneg (by unfold places; omega), Int.add_sub_cancel]
  have hparts := twoParts_lnParts hunits
  have hy := Elementary.isFinite_ofHalves_three
  have hvalue : (ofHalves 3).toReal = 3 / 2 := by
    rw [toReal_ofHalves (by decide)]
    norm_num
  have hsize : |(ofHalves 3).toReal| ≤ 2 ^ 63 := by
    rw [hvalue]
    norm_num
  obtain ⟨⟨hx, hproduct⟩, hw, -⟩ := mulParts_spec hparts hy hsize
  have hrest := mulParts_rest_le hparts hy hsize
  have hsmall := hparts.size
  rw [powFormula_eq]
  rw [hnormal] at hsmall hproduct hx hw hrest ⊢
  rw [hvalue, abs_mul, abs_of_pos (by norm_num : (0 : ℝ) < 3 / 2)] at hproduct
  exact exp_bounds hj hx hw hrest
    (abs_steps_sub_le (hproduct.trans (by linarith)) (lnParts_two_pow (by omega) hj) (by omega))

/-! ### Powers of positive numbers -/

theorem one_le_abs_toReal (hfin : y.isFinite = true) (hy : ofInt 1 ≤ y) : 1 ≤ |y.toReal| := by
  have hle := toReal_le_toReal hy isFinite_one hfin
  rw [toReal_one] at hle
  exact hle.trans (le_abs_self _)

/-- From one on, no exponent is so small that it is left to the sum with one. -/
theorem powPositive_eq (neg : Bool) (m : Magnitude) (hfin : y.isFinite = true)
    (hy : ofInt 1 ≤ y) : powPositive neg m y =
      if y.abs.lt (twoPow 63) then powFormula neg m y
      else if (fin false m).same (ofInt 1) then ofInt 1
      else if (ofInt 1).lt (fin false m) == !y.isNegative then inf false else zero false := by
  have hnot : y.abs.lt (twoPow (-65)) = false := by
    by_contra hlt
    have hle := abs_toReal_le_of_abs_lt hfin (isFinite_twoPow (by decide) (by decide))
      (Bool.eq_true_of_not_eq_false hlt)
    rw [toReal_twoPow_eq (by decide) (by decide)] at hle
    have hsmall : (2 : ℝ) ^ (-65 : ℤ) < 1 := by norm_num
    exact absurd ((one_le_abs_toReal hfin hy).trans hle) (not_le.mpr hsmall)
  rw [powPositive]
  simp only [hnot, Bool.false_eq_true, if_false]
  cases y.abs.lt (twoPow 63) <;> rfl

theorem ofSign_powPositive (neg : Bool) (hm : m.units ≠ 0) (hfin : y.isFinite = true)
    (hy : ofInt 1 ≤ y) (hneg : neg = true → y.abs.lt (twoPow 63) = true) :
    OfSign neg (powPositive neg m y) := by
  rw [powPositive_eq neg m hfin hy]
  split
  · rename_i hlt
    have hle := abs_toReal_le_of_abs_lt hfin (isFinite_twoPow (by decide) (by decide)) hlt
    rw [toReal_twoPow_eq (by decide) (by decide)] at hle
    exact ofSign_powFormula neg hm hfin (by exact_mod_cast hle)
  · cases neg with
    | true => exact absurd (hneg rfl) ‹_›
    | false =>
      split
      · exact le_of_lt one_pos
      split
      · exact le_of_lt (zero_lt_inf false)
      · exact zero_le_zero

/-! ### Powers -/

/-- Powers of zero, of the infinities and of NaN are formed as those with the exponents two and
three are. -/
theorem powSpecial_eq (hx : x.same (ofInt 1) = false) (hfin : y.isFinite = true)
    (hy : ofInt 1 ≤ y) : powSpecial x y =
      if x.isNegative && y.parity? == some true then -(x * x) else x * x := by
  obtain ⟨m, rfl, hm⟩ := exists_fin_of_pos hfin (lt_of_lt_of_le one_pos hy)
  have hzero : (fin false m).same (zero false) = false := by
    simp [same, signed, zero, Magnitude.zero, hm]
  rw [powSpecial, hzero, hx]
  cases x with
  | nan => rfl
  | inf s => rfl
  | fin s v => rfl

theorem pow_fin_false (hm : m.units ≠ 0) (hfin : y.isFinite = true) (hy : ofInt 1 ≤ y) :
    pow (fin false m) y = powPositive false m y := by
  obtain ⟨v, rfl, hv⟩ := exists_fin_of_pos hfin (lt_of_lt_of_le one_pos hy)
  rw [pow]
  simp only [hm, hv, decide_false, Bool.or_self, Bool.false_eq_true, if_false]

theorem pow_fin_true {odd : Bool} (hm : m.units ≠ 0) (hfin : y.isFinite = true)
    (hy : ofInt 1 ≤ y) (hodd : y.parity? = some odd) :
    pow (fin true m) y = powPositive odd m y := by
  obtain ⟨v, rfl, hv⟩ := exists_fin_of_pos hfin (lt_of_lt_of_le one_pos hy)
  rw [pow]
  simp only [hm, hv, decide_false, Bool.or_self, Bool.false_eq_true, if_false, if_true, hodd]

/-- A power of infinity has the sign that the exponent gives it. -/
theorem pow_inf (s : Bool) (hfin : y.isFinite = true) (hy : ofInt 1 ≤ y) :
    pow (inf s) y = inf (s && y.parity? == some true) := by
  have hone : (inf s).same (ofInt 1) = false := by
    have hlt := two_pow_lt_unitLimit (e := 0) (by decide)
    rw [two_pow_add_places, Nat.pow_zero, Nat.one_mul] at hlt
    rw [same, place_one]
    cases s with
    | true => exact decide_eq_false (by omega)
    | false => exact decide_eq_false (by omega)
  have hpow : pow (inf s) y = powSpecial (inf s) y := by cases y <;> rfl
  rw [hpow, powSpecial_eq hone hfin hy]
  cases s with
  | true => cases y.parity? == some true <;> rfl
  | false => rfl

theorem exists_pow_zero (s : Bool) (hfin : y.isFinite = true) (hy : ofInt 1 ≤ y) :
    ∃ t, pow (zero s) y = zero t := by
  have hone : (zero s).same (ofInt 1) = false := by
    have hpos := unitsPerOne_pos
    rw [same, place_one, place_zero]
    exact decide_eq_false (by omega)
  have hpow : pow (zero s) y = powSpecial (zero s) y := by
    obtain ⟨t, v, rfl⟩ := exists_fin hfin
    simp [pow, zero, Magnitude.zero]
  have hsquare : zero s * zero s = zero (s != s) := round_zero _ _
  rw [hpow, powSpecial_eq hone hfin hy, hsquare]
  split
  · exact ⟨!(s != s), rfl⟩
  · exact ⟨_, rfl⟩

theorem zero_le_pow (hx : zero false ≤ x) (hfin : y.isFinite = true) (hy : ofInt 1 ≤ y) :
    zero false ≤ pow x y := by
  cases x with
  | nan => exact absurd rfl (ne_nan_of_le hx).2
  | inf s =>
    cases s with
    | true =>
      have hlt : (inf true).lt (zero false) = true := neg_lt_neg (zero_lt_inf true)
      exact absurd ((not_lt_of_le hx).symm.trans hlt) Bool.false_ne_true
    | false =>
      rw [pow_inf false hfin hy]
      exact le_of_lt (zero_lt_inf false)
  | fin s m =>
    by_cases hm : m.units = 0
    · obtain rfl : m = Magnitude.zero := Magnitude.ext hm
      obtain ⟨t, ht⟩ := exists_pow_zero s hfin hy
      exact zero_le_iff_place.mpr ⟨0, ht ▸ place_zero t, Int.le_refl 0⟩
    · have hs : s = false := by
        obtain ⟨a, ha, ha0⟩ := zero_le_iff_place.mp hx
        rw [place_fin, Option.some.injEq] at ha
        cases s with
        | false => rfl
        | true =>
          have hsigned : signed true m = -(m.units : ℤ) := rfl
          omega
      rw [hs, pow_fin_false hm hfin hy]
      exact ofSign_powPositive false hm hfin hy (fun h => absurd h Bool.false_ne_true)

/-- A whole positive exponent is one at least. -/
theorem one_le_of_toInt? {n : ℤ} (hy : (zero false).lt y = true) (h : y.toInt? = some n) :
    y.isFinite = true ∧ ofInt 1 ≤ y := by
  have hfin : y.isFinite = true := by
    cases y with
    | fin s m => rfl
    | nan => exact absurd h (by simp [toInt?])
    | inf s => exact absurd h (by simp [toInt?])
  refine ⟨hfin, ?_⟩
  obtain ⟨m, rfl, hm⟩ := exists_fin_of_pos hfin hy
  rw [toInt?] at h
  split at h
  · have hle := Nat.le_of_dvd (Nat.pos_of_ne_zero hm) (Nat.dvd_of_mod_eq_zero ‹_›)
    exact le_iff_place.mpr ⟨_, _, place_one, place_fin false m, Int.ofNat_le.mpr hle⟩
  · cases h

/-- **The sign of powers of negative numbers** goes by the parity of the exponent. -/
theorem ofSign_pow {odd : Bool} (hx : x.lt (zero false) = true) (hy : (zero false).lt y = true)
    (hodd : y.parity? = some odd) : OfSign odd (pow x y) := by
  obtain ⟨n, hn, -⟩ := Option.map_eq_some_iff.mp hodd
  obtain ⟨hfin, hone⟩ := one_le_of_toInt? hy hn
  have hneg := isNegative_of_lt_zero hx
  cases x with
  | nan => simp [lt, place] at hx
  | inf s =>
    obtain rfl : s = true := hneg
    rw [pow_inf true hfin hone, hodd]
    cases odd with
    | true => exact ofSign_isNegative (x := inf true) (by simp)
    | false => exact ofSign_isNegative (x := inf false) (by simp)
  | fin s m =>
    obtain rfl : s = true := hneg
    have hm : m.units ≠ 0 := by
      intro h0
      obtain rfl : m = Magnitude.zero := Magnitude.ext h0
      exact absurd ((lt_zero_zero true false).symm.trans hx) Bool.false_ne_true
    rw [pow_fin_true hm hfin hone hodd]
    refine ofSign_powPositive odd hm hfin hone fun hodd' => ?_
    by_contra hlt
    obtain ⟨v, rfl, -⟩ := exists_fin_of_pos hfin hy
    have hlarge : 2 ^ (53 + places) ≤ v.units := by
      have hle := le_of_not_lt (x := (fin false v).abs) (y := twoPow 63) (by simp [abs])
        (ne_nan_of_isFinite (isFinite_twoPow (by decide) (by decide)))
        (Bool.eq_false_of_not_eq_true hlt)
      have hunits := Int.ofNat_le.mp
        ((le_iff_of_place (place_twoPow (by decide) (by decide)) (place_fin false v)).mp hle)
      exact (Nat.pow_le_pow_right Nat.two_pos (by unfold places; decide)).trans hunits
    rw [parity?_of_dvd false (two_mul_unitsPerOne_dvd hlarge), hodd', Option.some.injEq] at hodd
    exact Bool.false_ne_true hodd

/-! ### Powers of the rate -/

theorem pow_halves_facts : (ofInt 1 ≤ ofHalves 3 ∧ (ofHalves 3).abs.lt (twoPow 63) = true) ∧
    pow (ofInt 1) (ofHalves 3) = ofInt 1 ∧ exp2 (zero true) = twoPow 0 := by
  decide +kernel

/-- **The power `3 / 2` of a power of two** is between powers of two, within the format and beyond
its ends. -/
theorem pow_twoPow_bounds (j : ℤ) : twoPow ((3 * j + 1) / 2 - 1) ≤ pow (twoPow j) (ofHalves 3) ∧
    pow (twoPow j) (ofHalves 3) ≤ twoPow (3 * j / 2 + 1) := by
  obtain ⟨⟨hone, hlt⟩, hpow, -⟩ := pow_halves_facts
  have hfin := Elementary.isFinite_ofHalves_three
  rcases Int.lt_or_le j (-1074) with hlow | hlow
  · obtain ⟨t, ht⟩ := exists_pow_zero false hfin hone
    rw [twoPow_of_small (n := j) (by omega), ht, twoPow_of_small (by omega)]
    exact ⟨zero_le_iff_place.mpr ⟨0, place_zero t, Int.le_refl 0⟩,
      le_trans (le_zero_iff_place.mpr ⟨0, place_zero t, Int.le_refl 0⟩) (twoPow_nonneg _)⟩
  rcases Int.lt_or_le 1023 j with hhigh | hhigh
  · rw [twoPow_of_large (n := j) (by omega), pow_inf false hfin hone,
      twoPow_of_large (n := 3 * j / 2 + 1) (by omega)]
    exact ⟨le_inf (ne_nan_of_le (twoPow_nonneg _)).2, le_inf (by simp)⟩
  by_cases hj : j = 0
  · rw [hj, twoPow_zero, hpow, ← twoPow_zero]
    exact ⟨twoPow_mono (by decide), twoPow_mono (by decide)⟩
  · obtain ⟨m, hm, hunits⟩ := exists_fin_of_pos (isFinite_twoPow hlow hhigh) (twoPow_pos hlow hhigh)
    have hplace := place_twoPow hlow hhigh
    rw [hm, place_fin, Option.some.injEq] at hplace
    rw [hm, pow_fin_false hunits hfin hone, powPositive_eq false m hfin hone, if_pos hlt]
    exact powFormula_bounds (Int.ofNat_inj.mp hplace) hlow hhigh hj

end Binary64

/-! ### The laws -/

namespace Elementary

open Binary64

theorem one_le_ofInt {n : ℕ} (hn : 0 < n) : ofInt 1 ≤ ofInt n := ofInt_le_ofInt (by omega)

/-- The general power of this library is as the evaluation needs it, -/
theorem powLaws_tabulated : tabulated.PowLaws where
  toPowSpecial := powSpecial_tabulated
  pow_nonneg _ _ hx hn hn' := zero_le_pow hx (isFinite_ofInt_of_lt hn') (one_le_ofInt hn)
  pow_rate r hr _ := by
    obtain ⟨hlow, hhigh⟩ := pow_twoPow_bounds (-r)
    exact ⟨le_trans (twoPow_nonneg _) hlow, le_trans hhigh (twoPow_le_half (by omega))⟩

theorem tabulated_exp2_neg (n : ℤ) : tabulated.exp2 (-ofInt n) = twoPow (-n) :=
  expLaws_tabulated.exp2_neg pow_halves_facts.2.2 n

/-- rates and their powers are in order, -/
theorem rateLaws_tabulated : tabulated.RateLaws where
  exp2_nonneg := expLaws_tabulated.nonneg
  exp2_mono n k hnk := by
    rw [tabulated_exp2_neg, tabulated_exp2_neg]
    exact twoPow_mono (Int.neg_le_neg hnk)
  pow_mono n k hnk := by
    rw [tabulated_exp2_neg, tabulated_exp2_neg]
    obtain ⟨hlow, hhigh⟩ := pow_twoPow_bounds (-k)
    obtain ⟨hlow', hhigh'⟩ := pow_twoPow_bounds (-n)
    rcases hnk.eq_or_lt with rfl | hlt
    · exact le_refl (ne_nan_of_le hlow).2
    · exact le_trans hhigh (le_trans (twoPow_mono (by omega)) hlow')
  pow_nonneg n := by
    rw [tabulated_exp2_neg]
    exact le_trans (twoPow_nonneg _) (pow_twoPow_bounds (-n)).1

/-- and powers of negative numbers have the sign that the exponent gives them. -/
theorem powSign_tabulated : tabulated.PowSign where
  pow_sign _ _ _ := ofSign_pow

end Elementary

end FriBound
