import FriBound.Proofs.LogSumError

/-!
# The real functions, rounded

The elementary functions of the real numbers, cut off at the end of the format and rounded to 53
digits. They cannot be computed in this form, but they have all that is asked of elementary
functions, which can therefore be had together.

## Main definitions

* `Binary64.ofReal` — a real number, rounded
* `Elementary.rounded` — the functions

## Main results

* `Elementary.logLaws_rounded`, `Elementary.expLaws_rounded`, `Elementary.powLaws_rounded`,
  `Elementary.accurate_rounded` — what is asked of them
-/

namespace FriBound

namespace Binary64

variable {x y : Binary64} {t : ℝ}

/-- A real number, cut off to whole units and rounded to 53 digits. -/
noncomputable def ofReal (t : ℝ) : Binary64 :=
  round (decide (t < 0)) ⌊|t| * unitsPerOne⌋₊ 1

theorem ofReal_of_nonneg (ht : 0 ≤ t) : ofReal t = round false ⌊t * unitsPerOne⌋₊ 1 := by
  rw [ofReal, abs_of_nonneg ht, decide_eq_false (not_lt.mpr ht)]

theorem place_ofReal (ht : 0 ≤ t) :
    (ofReal t).place = some (roundPlace (⌊t * unitsPerOne⌋₊ : ℕ) 1) := by
  rw [ofReal_of_nonneg ht]
  exact place_round_false _ 1

theorem ofReal_nonneg (ht : 0 ≤ t) : zero false ≤ ofReal t :=
  zero_le_iff_place.mpr ⟨_, place_ofReal ht, roundPlace_nonneg 1 (Int.natCast_nonneg _)⟩

theorem toReal_mul_unitsPerOne {a : ℤ} (hx : x.isFinite = true) (ha : x.place = some a) :
    x.toReal * unitsPerOne = a := by
  have hunit := unitsPerOne_mul_unit
  rw [toReal_of_place ha hx]
  linear_combination a * hunit

theorem ofReal_le (ht : 0 ≤ t) (hy : y.isFinite = true) (h : t ≤ y.toReal) : ofReal t ≤ y := by
  obtain ⟨b, hb, -⟩ := isFinite_iff_place.mp hy
  refine le_iff_place.mpr ⟨_, b, place_ofReal ht, hb, ?_⟩
  refine roundPlace_le (short_place hb) (natAbs_place_le hb) Nat.one_pos ?_
  have hfloor : (⌊t * unitsPerOne⌋₊ : ℝ) ≤ b := by
    calc (⌊t * unitsPerOne⌋₊ : ℝ) ≤ t * unitsPerOne := Nat.floor_le (by positivity)
      _ ≤ y.toReal * unitsPerOne := by gcongr
      _ = b := toReal_mul_unitsPerOne hy hb
  rw [Nat.cast_one, Int.mul_one]
  exact_mod_cast hfloor

theorem ofReal_of_large (h : 2 ^ (1024 : ℝ) ≤ t) : ofReal t = inf false := by
  have ht : 0 ≤ t := (Real.rpow_nonneg two_pos.le _).trans h
  have hlimit : (unitLimit : ℝ) = 2 ^ (1024 : ℝ) * unitsPerOne := by
    rw [unitLimit_eq, unitsPerOne_eq, Nat.cast_pow, Nat.cast_pow, Nat.cast_ofNat,
      ← Real.rpow_natCast, ← Real.rpow_natCast, ← Real.rpow_add two_pos]
    norm_num [topDigits, places]
  have hfloor : unitLimit ≤ ⌊t * unitsPerOne⌋₊ := by
    refine Nat.le_floor ?_
    rw [hlimit]
    gcongr
  refine eq_of_inf_le (le_iff_place.mpr ⟨_, _, rfl, place_ofReal ht, ?_⟩)
  refine le_roundPlace (short_place (x := inf false) rfl) (by simp) Nat.one_pos ?_
  rw [if_neg Bool.false_ne_true, Nat.cast_one, Int.mul_one]
  exact_mod_cast hfloor

theorem ofReal_of_small (ht : 0 ≤ t) (h : t < unit) : ofReal t = zero false := by
  have hfloor : ⌊t * unitsPerOne⌋₊ = 0 := by
    rw [Nat.floor_eq_zero]
    have hunits : (0 : ℝ) < unitsPerOne := Nat.cast_pos.mpr unitsPerOne_pos
    calc t * unitsPerOne < unit * unitsPerOne := by gcongr
      _ = 1 := by linarith [unitsPerOne_mul_unit]
  rw [ofReal_of_nonneg ht, hfloor, round_zero]

theorem abs_ofReal (t : ℝ) : (ofReal t).abs = ofReal |t| := by
  rw [ofReal_of_nonneg (abs_nonneg t), ofReal, round, round]
  split <;> rfl

/-- The numbers of the format are left as they are. -/
theorem ofReal_toReal (hx : x.isFinite = true) (hpos : (zero false).lt x = true) :
    ofReal x.toReal = x := by
  obtain ⟨m, rfl, hm⟩ := exists_fin_of_pos hx hpos
  have hvalue := toReal_mul_unitsPerOne hx (place_fin false m)
  have hunits : (fin false m).toReal * unitsPerOne = (m.units : ℝ) := hvalue
  rw [ofReal_of_nonneg (toReal_pos hpos hx).le, hunits, Nat.floor_natCast]
  refine round_of_lt ?_
  have hshort := roundShort_of_short m.short Nat.one_pos
  rwa [Nat.mul_one] at hshort

theorem ofReal_one : ofReal 1 = ofInt 1 := by
  have hone := ofReal_toReal isFinite_one one_pos
  rwa [toReal_ofInt (by decide), Int.cast_one] at hone

theorem ofReal_of_neg (ht : t < 0) : ofReal t = -ofReal (-t) := by
  rw [ofReal_of_nonneg (neg_nonneg.mpr ht.le), ofReal, abs_of_neg ht, decide_eq_true ht]
  show _ = (round false _ 1).neg
  rw [round, round]
  split <;> rfl

theorem ofReal_sub_le_of_nonneg (ht : 0 ≤ t) (hfin : (ofReal t).isFinite = true) :
    |(ofReal t).toReal - t| ≤ eps * t + unit := by
  have hunit := unit_pos
  have hround := toReal_sub_le (f := fun w => w / 2 ^ 53) hfin (place_ofReal ht)
    (fun n => by simpa using abs_roundShort_one_sub_le n)
  rw [Nat.cast_one, div_one, div_one, Int.cast_natCast, Nat.abs_cast] at hround
  have hlow : (⌊t * unitsPerOne⌋₊ : ℝ) * unit ≤ t := by
    calc (⌊t * unitsPerOne⌋₊ : ℝ) * unit ≤ t * unitsPerOne * unit := by
          gcongr
          exact Nat.floor_le (by positivity)
      _ = t := by rw [mul_assoc, unitsPerOne_mul_unit, mul_one]
  have hhigh : t ≤ (⌊t * unitsPerOne⌋₊ + 1 : ℝ) * unit := by
    calc t = t * unitsPerOne * unit := by rw [mul_assoc, unitsPerOne_mul_unit, mul_one]
      _ ≤ (⌊t * unitsPerOne⌋₊ + 1 : ℝ) * unit := by
          gcongr
          exact (Nat.lt_floor_add_one _).le
  have hcut : |(⌊t * unitsPerOne⌋₊ : ℝ) * unit - t| ≤ unit := by
    rw [abs_le]
    constructor <;> linarith
  have hrel : (⌊t * unitsPerOne⌋₊ : ℝ) / 2 ^ 53 * unit ≤ eps * t := by
    calc (⌊t * unitsPerOne⌋₊ : ℝ) / 2 ^ 53 * unit = eps / 2 * (⌊t * unitsPerOne⌋₊ * unit) := by
          rw [two_mul_div_two_pow]
          ring
      _ ≤ eps * t := by nlinarith [eps_pos]
  calc |(ofReal t).toReal - t|
      = |((ofReal t).toReal - ⌊t * unitsPerOne⌋₊ * unit) + (⌊t * unitsPerOne⌋₊ * unit - t)| := by
        rw [sub_add_sub_cancel]
    _ ≤ |(ofReal t).toReal - ⌊t * unitsPerOne⌋₊ * unit| + |⌊t * unitsPerOne⌋₊ * unit - t| :=
        abs_add_le _ _
    _ ≤ eps * t + unit := by linarith

/-- What is lost. -/
theorem ofReal_sub_le (hfin : (ofReal t).isFinite = true) :
    |(ofReal t).toReal - t| ≤ eps * |t| + unit := by
  rcases le_or_gt 0 t with ht | ht
  · rw [abs_of_nonneg ht]
    exact ofReal_sub_le_of_nonneg ht hfin
  · rw [ofReal_of_neg ht] at hfin ⊢
    have hfin' := isFinite_neg.symm.trans hfin
    have hpos := ofReal_sub_le_of_nonneg (neg_nonneg.mpr ht.le) hfin'
    have hsign : -(ofReal (-t)).toReal - t = -t - (ofReal (-t)).toReal := by ring
    rwa [toReal_neg hfin', hsign, abs_sub_comm, abs_of_neg ht]

end Binary64

namespace Elementary

open Binary64

/-- The power of two, rounded. -/
noncomputable def roundedExp2 : Binary64 → Binary64
  | .nan => .nan
  | .inf neg => if neg then zero false else .inf false
  | .fin neg m => ofReal (Exact.exp2 (fin neg m).toReal).toReal

/-- The logarithm, rounded. -/
noncomputable def roundedLog2 : Binary64 → Binary64
  | .nan => .nan
  | .inf neg => if neg then .nan else .inf false
  | .fin neg m =>
    if m.units = 0 then .inf true
    else if neg then .nan
    else ofReal (Exact.log2 (fin neg m).toReal).toReal

/-- The power of a base that is not negative, rounded. -/
noncomputable def roundedPow : Binary64 → Binary64 → Binary64
  | .nan, _ => .nan
  | .inf _, _ => .inf false
  | .fin neg m, y => ofReal (Exact.pow (fin neg m).toReal y.toReal).toReal

/-- The real functions, rounded. -/
noncomputable def rounded : Elementary where
  exp2 := roundedExp2
  log2 := roundedLog2
  pow := roundedPow

variable {x : Binary64} {n : ℤ}

theorem roundedExp2_of_isFinite (hx : x.isFinite = true) :
    roundedExp2 x = ofReal (2 ^ x.toReal) := by
  obtain ⟨s, m, rfl⟩ := exists_fin hx
  rfl

theorem roundedExp2_ofInt (h : -1074 ≤ n) (h' : n ≤ 1023) : roundedExp2 (ofInt n) = twoPow n := by
  have hfin : (ofInt n).isFinite = true :=
    Within.isFinite (e := 11) (Within.ofInt (by omega)) (by decide)
  rw [roundedExp2_of_isFinite hfin, toReal_ofInt (by omega), ← toReal_twoPow h h',
    ofReal_toReal (isFinite_twoPow h h') (twoPow_pos h h')]

theorem roundedLog2_of_pos (hx : x.isFinite = true) (hpos : (zero false).lt x = true) :
    roundedLog2 x = ofReal (Real.logb 2 x.toReal) := by
  obtain ⟨m, rfl, hm⟩ := exists_fin_of_pos hx hpos
  rw [roundedLog2, if_neg hm, if_neg Bool.false_ne_true, Exact.log2_coe (toReal_pos hpos hx).ne',
    EReal.toReal_coe]

theorem roundedPow_of_isFinite {y : Binary64} (hx : x.isFinite = true) :
    roundedPow x y = ofReal (x.toReal ^ y.toReal) := by
  obtain ⟨s, m, rfl⟩ := exists_fin hx
  rfl

theorem expLaws_rounded : rounded.ExpLaws where
  exp2_ofInt n hlow hhigh := roundedExp2_ofInt hlow hhigh
  exp2_large x hx := by
    have hword : (ofInt 1024).isFinite = true :=
      Within.isFinite (e := 10) (Within.ofInt (by decide)) (by decide)
    show roundedExp2 x = _
    cases hfin : x.isFinite with
    | true =>
      have hvalue := toReal_le_toReal hx hword hfin
      rw [toReal_ofInt (by decide), Int.cast_ofNat] at hvalue
      rw [roundedExp2_of_isFinite hfin]
      exact ofReal_of_large (Real.rpow_le_rpow_of_exponent_le one_le_two hvalue)
    | false =>
      have hpos : zero false ≤ x := le_trans (ofInt_zero ▸ ofInt_le_ofInt (by decide)) hx
      rw [eq_inf_of_nonneg hpos hfin]
      rfl
  exp2_small x hx := by
    have hword : (ofInt (-1075)).isFinite = true :=
      Within.isFinite (e := 11) (Within.ofInt (by decide)) (by decide)
    show roundedExp2 x = _
    cases x with
    | nan => exact absurd rfl (ne_nan_of_le hx).1
    | inf s =>
      cases s with
      | true => rfl
      | false =>
        rw [eq_of_inf_le hx] at hword
        exact absurd hword Bool.false_ne_true
    | fin s m =>
      have hvalue := toReal_le_toReal hx rfl hword
      rw [toReal_ofInt (by decide)] at hvalue
      rw [roundedExp2_of_isFinite rfl]
      refine ofReal_of_small (by positivity) ?_
      rw [unit_eq]
      refine Real.rpow_lt_rpow_of_exponent_lt one_lt_two ?_
      push_cast at hvalue
      linarith

theorem logLaws_rounded : rounded.LogLaws where
  abs_log2_le x hx hpos := by
    have hword : (ofInt 1074).isFinite = true :=
      Within.isFinite (e := 11) (Within.ofInt (by decide)) (by decide)
    show (roundedLog2 x).abs ≤ _
    rw [roundedLog2_of_pos hx hpos, abs_ofReal]
    refine ofReal_le (abs_nonneg _) hword ?_
    rw [toReal_ofInt (by decide), Int.cast_ofNat]
    exact abs_logb_toReal_le hx hpos
  log2_inf := rfl
  log2_nan := rfl
  exp2_zero := by
    show roundedExp2 (zero false) = _
    rw [roundedExp2_of_isFinite rfl, toReal_zero, Real.rpow_zero, ofReal_one]
  exp2_nan := rfl
  exp2_bounds x hx := by
    show zero false ≤ roundedExp2 x ∧ roundedExp2 x ≤ ofInt 1
    cases x with
    | nan => exact absurd rfl (ne_nan_of_le hx).1
    | inf s =>
      cases s with
      | true => exact ⟨zero_le_zero, le_of_lt one_pos⟩
      | false => exact absurd (eq_of_inf_le hx) (by simp [zero])
    | fin s m =>
      have hvalue := toReal_le_toReal hx rfl rfl
      rw [toReal_zero] at hvalue
      rw [roundedExp2_of_isFinite rfl]
      refine ⟨ofReal_nonneg (by positivity), ofReal_le (by positivity) isFinite_one ?_⟩
      rw [toReal_ofInt (by decide), Int.cast_one]
      exact Real.rpow_le_one_of_one_le_of_nonpos one_le_two hvalue

theorem powLaws_rounded : rounded.PowLaws where
  pow_inf n hn hn' := rfl
  pow_nan n hn hn' := rfl
  pow_nonneg x n hx hn hn' := by
    show zero false ≤ roundedPow x (ofInt n)
    cases x with
    | nan => exact absurd rfl (ne_nan_of_le hx).2
    | inf s => exact le_of_lt (zero_lt_inf false)
    | fin s m => exact ofReal_nonneg (Real.rpow_nonneg (toReal_nonneg hx rfl) _)
  pow_rate r hr hr' := by
    have hrate : (twoPow (-r)).isFinite = true := isFinite_twoPow (by omega) (by omega)
    have hr1 : (1 : ℝ) ≤ r := by exact_mod_cast hr
    show zero false ≤ roundedPow (twoPow (-r)) (ofHalves 3) ∧
      roundedPow (twoPow (-r)) (ofHalves 3) ≤ ofHalves 1
    rw [roundedPow_of_isFinite hrate, toReal_twoPow (by omega) (by omega),
      toReal_ofHalves (by decide), ← Real.rpow_mul two_pos.le]
    refine ⟨ofReal_nonneg (by positivity), ofReal_le (by positivity) isFinite_half ?_⟩
    rw [toReal_ofHalves (by decide)]
    calc (2 : ℝ) ^ (((-r : ℤ) : ℝ) * ((3 : ℤ) / 2)) ≤ 2 ^ (-1 : ℝ) := by
          refine Real.rpow_le_rpow_of_exponent_le one_le_two ?_
          push_cast
          linarith
      _ = ((1 : ℤ) : ℝ) / 2 := by
          rw [Real.rpow_neg_one]
          norm_num

theorem accurate_rounded : rounded.Accurate where
  exp2_sub_le x hx hfin := by
    change (roundedExp2 x).isFinite = true at hfin
    show |(roundedExp2 x).toReal - _| ≤ _
    rw [roundedExp2_of_isFinite hx] at hfin ⊢
    have hcut := ofReal_sub_le hfin
    rwa [abs_of_pos (Real.rpow_pos_of_pos two_pos _)] at hcut
  exp2_negInf := rfl
  log2_sub_le x hx hpos := by
    have hfin := (logLaws_rounded.within_log2 hx hpos).isFinite (by decide)
    change (roundedLog2 x).isFinite = true at hfin
    show |(roundedLog2 x).toReal - _| ≤ _
    rw [roundedLog2_of_pos hx hpos] at hfin ⊢
    exact ofReal_sub_le hfin
  pow_sub_le x y hx hpos hy hfin := by
    change (roundedPow x y).isFinite = true at hfin
    show |(roundedPow x y).toReal - _| ≤ _
    rw [roundedPow_of_isFinite hx] at hfin ⊢
    have hcut := ofReal_sub_le hfin
    rwa [abs_of_pos (Real.rpow_pos_of_pos (toReal_pos hpos hx) _)] at hcut

end Elementary

end FriBound
