import FriBound.Proofs.Assembly

/-!
# The size of the power of two

The computed power of two lies between zero and one if its exponent is not positive. Sizes alone do
not show this near the exponent zero, where the polynomial has to have the right sign. There the
errors of the single operations are added up.

## Main results

* `Binary64.exp2_bounds` — the size of the power
* `Elementary.logLaws_tabulated` — the functions of this library obey the laws
-/

namespace FriBound

namespace Binary64

variable {x y : Binary64}

theorem Small.abs_toReal_le {n : ℕ} (h : Small n x) (hn : n ≤ 2 ^ 53) :
    |x.toReal| ≤ n / 2 ^ 40 := by
  have hone := unitsPerOne_mul_unit
  rw [unitsPerOne_eq_mul_grain, Nat.cast_mul, Nat.cast_pow, Nat.cast_ofNat] at hone
  refine (AtMost.abs_toReal_le h (h.isFinite hn)).trans_eq ?_
  rw [eq_div_iff (by positivity), Nat.cast_mul]
  linear_combination (n : ℝ) * hone

theorem small_of_abs_toReal_le {n : ℕ} (hx : x.isFinite = true) (h : |x.toReal| ≤ n / 2 ^ 40) :
    Small n x := by
  obtain ⟨a, ha, -⟩ := isFinite_iff_place.mp hx
  have hone := unitsPerOne_mul_unit
  rw [unitsPerOne_eq_mul_grain, Nat.cast_mul, Nat.cast_pow, Nat.cast_ofNat] at hone
  refine ⟨a, ha, ?_⟩
  rw [abs_toReal_of_place ha hx, le_div_iff₀ (by positivity)] at h
  have hle : (a.natAbs : ℝ) * unit ≤ (n * grain : ℕ) * unit := by
    push_cast at hone ⊢
    linarith [congrArg (fun w : ℝ => w * n) hone]
  exact_mod_cast le_of_mul_le_mul_right hle unit_pos

/-! ### Coarse bounds -/

/-- Rounding at most doubles a product. -/
theorem abs_toReal_mul_le {a b : ℝ} (hfin : (x * y).isFinite = true) (hx : |x.toReal| ≤ a)
    (hy : |y.toReal| ≤ b) (hab : unit ≤ a * b) : |(x * y).toReal| ≤ 2 * (a * b) := by
  have hprod : |x.toReal * y.toReal| ≤ a * b := by
    rw [abs_mul]
    exact (mul_le_mul_of_nonneg_right hx (abs_nonneg _)).trans
      (mul_le_mul_of_nonneg_left hy ((abs_nonneg _).trans hx))
  have hround := toReal_mul_sub_le hfin
  have hmax : max (unit / 2) (|x.toReal * y.toReal| / 2 ^ 53) ≤ a * b := by
    refine max_le (by linarith [unit_pos]) ?_
    linarith [abs_nonneg (x.toReal * y.toReal)]
  linarith [abs_sub_abs_le_abs_sub (x * y).toReal (x.toReal * y.toReal)]

/-- Rounding at most halves a product. -/
theorem toReal_mul_le_half (hfin : (x * y).isFinite = true) (h : x.toReal * y.toReal ≤ -unit) :
    (x * y).toReal ≤ x.toReal * y.toReal / 2 := by
  have hround := toReal_mul_sub_le hfin
  have hunit := unit_pos
  rw [abs_of_nonpos (by linarith : x.toReal * y.toReal ≤ 0)] at hround
  have hmax : max (unit / 2) (-(x.toReal * y.toReal) / 2 ^ 53) ≤ -(x.toReal * y.toReal) / 2 :=
    max_le (by linarith) (by linarith)
  linarith [(abs_le.mp hround).2]

/-- Rounding at most halves a sum. -/
theorem toReal_add_le_half (hfin : (x + y).isFinite = true) (h : x.toReal + y.toReal ≤ 0) :
    (x + y).toReal ≤ (x.toReal + y.toReal) / 2 := by
  have hround := toReal_add_sub_le hfin
  rw [abs_of_nonpos h] at hround
  linarith [(abs_le.mp hround).2]

/-! ### The exponent of the small factor -/

section Exponent

variable {r t c₁ c₂ c₃ c₄ c₅ : Binary64}

/-- The parts of the polynomial. -/
theorem small_exponentParts (hr : Small (2 ^ 32) r)
    (hc : ∀ c ∈ [c₂, c₃, c₄, c₅], Small (2 ^ 38) c) :
    Small (2 ^ 24) (r * r) ∧ Small (2 ^ 39) (c₂ + r * c₃) ∧ Small (2 ^ 8) (r * r * (r * r)) ∧
      Small (2 ^ 39) (c₄ + r * c₅) := by
  simp only [List.forall_mem_cons] at hc
  obtain ⟨hc₂, hc₃, hc₄, hc₅, -⟩ := hc
  have hsquare : Small (2 ^ 24) (r * r) := hr.mul hr (by decide)
  exact ⟨hsquare, hc₂.add (hr.mul hc₃ (l := 2 ^ 30) (by decide)) (by decide),
    hsquare.mul hsquare (by decide), hc₄.add (hr.mul hc₅ (l := 2 ^ 30) (by decide)) (by decide)⟩

theorem small_exponent (hr : Small (2 ^ 32) r) (ht : Small 1 t) (hc₁ : Small (3 * 2 ^ 38) c₁)
    (hc : ∀ c ∈ [c₂, c₃, c₄, c₅], Small (2 ^ 38) c) :
    Small (3 * 2 ^ 30 + 2 ^ 24)
      (t + r * c₁ + r * r * (c₂ + r * c₃) + r * r * (r * r) * (c₄ + r * c₅)) := by
  obtain ⟨hsquare, hlow, hfourth, hhigh⟩ := small_exponentParts hr hc
  have hlinear := ht.add (hr.mul hc₁ (l := 3 * 2 ^ 30) (by decide)) (l := 3 * 2 ^ 30 + 1)
    (by decide)
  have hsum := hlinear.add (hsquare.mul hlow (l := 2 ^ 23) (by decide))
    (l := 3 * 2 ^ 30 + 2 ^ 23 + 1) (by decide)
  exact hsum.add (hfourth.mul hhigh (l := 2 ^ 7) (by decide)) (by decide)

/-- The linear part has at least the eighth part of the size of `r`. -/
theorem linear_le (hr : Small (2 ^ 32) r) (hneg : r.toReal ≤ -(2 * unit))
    (hc₁ : Small (3 * 2 ^ 38) c₁) (hhalf : 1 / 2 ≤ c₁.toReal) :
    Small (3 * 2 ^ 30) (zero false + r * c₁) ∧ (zero false + r * c₁).toReal ≤ r.toReal / 8 := by
  have hunit := unit_pos
  have hstart : Small 0 (zero false) := ⟨0, place_zero false, Nat.zero_le _⟩
  have hlinear : Small (3 * 2 ^ 30) (r * c₁) := hr.mul hc₁ (by decide)
  have hsum : Small (3 * 2 ^ 30) (zero false + r * c₁) := hstart.add hlinear (by decide)
  have hexact : r.toReal * c₁.toReal ≤ r.toReal / 2 := by
    linarith [mul_le_mul_of_nonpos_left hhalf (by linarith : r.toReal ≤ 0)]
  have hprod := toReal_mul_le_half (hlinear.isFinite (by decide)) (by linarith)
  have hhalved := toReal_add_le_half (hsum.isFinite (by decide)) (by rw [toReal_zero]; linarith)
  rw [toReal_zero] at hhalved
  exact ⟨hsum, by linarith⟩

/-- The rests of the polynomial are far smaller than `r`. -/
theorem abs_rests_le {w : ℝ} (hr : Small (2 ^ 32) r) (hw : |r.toReal| ≤ w) (hunit : unit ≤ w / 256)
    (hc : ∀ c ∈ [c₂, c₃, c₄, c₅], Small (2 ^ 38) c) :
    |(r * r * (c₂ + r * c₃)).toReal| ≤ w / 128 ∧
      |(r * r * (r * r) * (c₄ + r * c₅)).toReal| ≤ w / 128 := by
  obtain ⟨hsquare, hlow, hfourth, hhigh⟩ := small_exponentParts hr hc
  have hsecond : Small (2 ^ 23) (r * r * (c₂ + r * c₃)) := hsquare.mul hlow (by decide)
  have hthird : Small (2 ^ 7) (r * r * (r * r) * (c₄ + r * c₅)) := hfourth.mul hhigh (by decide)
  have hrr := abs_toReal_mul_le (b := 1 / 256) (hsquare.isFinite (by decide)) hw
    ((hr.abs_toReal_le (by decide)).trans (by norm_num)) (by linarith)
  have hQ := abs_toReal_mul_le (b := 1 / 2) (hsecond.isFinite (by decide)) hrr
    ((hlow.abs_toReal_le (by decide)).trans (by norm_num)) (by linarith)
  have hrrrr := abs_toReal_mul_le (b := 1 / 2) (hfourth.isFinite (by decide)) hrr
    ((hsquare.abs_toReal_le (by decide)).trans (by norm_num)) (by linarith)
  have hT := abs_toReal_mul_le (b := 1 / 2) (hthird.isFinite (by decide)) hrrrr
    ((hhigh.abs_toReal_le (by decide)).trans (by norm_num)) (by linarith)
  exact ⟨by linarith, by linarith⟩

/-- Below zero the linear part decides the sign. -/
theorem exponent_nonpos (hr : Small (2 ^ 32) r) (hneg : r.toReal ≤ -(1 / 2 ^ 55))
    (hc₁ : Small (3 * 2 ^ 38) c₁) (hhalf : 1 / 2 ≤ c₁.toReal)
    (hc : ∀ c ∈ [c₂, c₃, c₄, c₅], Small (2 ^ 38) c) :
    (zero false + r * c₁ + r * r * (c₂ + r * c₃) + r * r * (r * r) * (c₄ + r * c₅)).toReal ≤ 0 := by
  have hunit : unit ≤ -r.toReal / 256 := unit_le.trans (by linarith)
  have hpos := unit_pos
  obtain ⟨hfirst, hlinear⟩ := linear_le hr (by linarith) hc₁ hhalf
  obtain ⟨hQ, hT⟩ := abs_rests_le hr (abs_of_nonpos (by linarith)).le hunit hc
  obtain ⟨hsquare, hlow, hfourth, hhigh⟩ := small_exponentParts hr hc
  have hsum : Small (2 ^ 32) (zero false + r * c₁ + r * r * (c₂ + r * c₃)) :=
    hfirst.add (hsquare.mul hlow (l := 2 ^ 23) (by decide)) (by decide)
  have htotal := hsum.add (hfourth.mul hhigh (l := 2 ^ 7) (by decide)) (l := 2 ^ 33) (by decide)
  have hQ' := (abs_le.mp hQ).2
  have hT' := (abs_le.mp hT).2
  have hhalved := toReal_add_le_half (hsum.isFinite (by decide)) (by linarith)
  linarith [toReal_add_le_half (htotal.isFinite (by decide)) (by linarith)]

end Exponent

/-! ### Putting the product together -/

theorem one_add_bounds (hx : x.isFinite = true) (hlow : -1 ≤ x.toReal) (hhigh : x.toReal ≤ 0) :
    zero false ≤ ofInt 1 + x ∧ ofInt 1 + x ≤ ofInt 1 := by
  have hone : (ofInt 1).toReal = 1 := by rw [toReal_ofInt (by decide), Int.cast_one]
  constructor
  · refine le_add_of_toReal_le isFinite_one hx rfl ?_
    rw [toReal_zero, hone]
    linarith
  · refine add_le_of_toReal_le isFinite_one hx isFinite_one ?_
    rw [hone]
    linarith

theorem Small.abs_toReal_le' {t : Binary64} (ht : Small (3 * 2 ^ 30 + 2 ^ 24) t) :
    |t.toReal| ≤ 2945 / 1000000 := by
  have hsize := ht.abs_toReal_le (by decide)
  push_cast at hsize
  linarith

/-- A power with a negative exponent. -/
theorem assemble_neg_bounds {k : ℤ} {t : Binary64} (hk : -190000 ≤ k) (hk' : k < 0)
    (ht : Small (3 * 2 ^ 30 + 2 ^ 24) t) :
    zero false ≤ assemble false k t ∧ assemble false k t ≤ ofInt 1 := by
  have hrough := assemble_bounds hk (ht.isFinite (by decide)) ht.abs_toReal_le'
  exact ⟨le_trans (twoPow_nonneg _) hrough.half_le,
    le_trans hrough.le_twice (twoPow_bounds (by omega)).2⟩

/-- A power with the exponent zero. -/
theorem assemble_zero_bounds {t : Binary64} (ht : Small (3 * 2 ^ 30 + 2 ^ 24) t)
    (hneg : t.toReal ≤ 0) : zero false ≤ assemble false 0 t ∧ assemble false 0 t ≤ ofInt 1 := by
  have hfin := ht.isFinite (by decide)
  have hrough := assemble_bounds (k := 0) (by decide) hfin ht.abs_toReal_le'
  refine ⟨le_trans (twoPow_nonneg _) hrough.half_le, ?_⟩
  obtain ⟨hsum, hsum'⟩ :=
    one_add_bounds hfin (by linarith [(abs_le.mp ht.abs_toReal_le').1]) hneg
  have hentry : signedOne false * ofBits (fractionalPower 0).1 = ofInt 1 := by
    rw [fractionalPower_zero.1]
    exact one_mul isFinite_one
  rw [assemble, if_neg (Int.lt_irrefl 0), hentry, one_mul hfin]
  have hscale := scale_le_twoPow (i := 0) (by decide) (by decide)
    (isFinite_of_le_of_le hsum hsum' rfl isFinite_one) (hsum'.trans_eq twoPow_zero.symm) 0
  exact hscale.trans_eq twoPow_zero

/-- The table entry, with the polynomial in the rest. -/
theorem assemble_exponent_bounds {k : ℤ} {r t c₁ c₂ c₃ c₄ c₅ : Binary64} (hk : -137600 ≤ k)
    (hk' : k ≤ 0) (hr : Small (2 ^ 32) r) (ht : Small 1 t) (hc₁ : Small (3 * 2 ^ 38) c₁)
    (hhalf : ofHalves 1 ≤ c₁) (hc : ∀ c ∈ [c₂, c₃, c₄, c₅], Small (2 ^ 38) c)
    (hzero : k = 0 → t = zero false ∧ r.toReal ≤ -(1 / 2 ^ 55)) :
    zero false ≤ assemble false k
        (t + r * c₁ + r * r * (c₂ + r * c₃) + r * r * (r * r) * (c₄ + r * c₅)) ∧
      assemble false k (t + r * c₁ + r * r * (c₂ + r * c₃) + r * r * (r * r) * (c₄ + r * c₅))
        ≤ ofInt 1 := by
  have hsmall := small_exponent hr ht hc₁ hc
  rcases hk'.lt_or_eq with hlt | rfl
  · exact assemble_neg_bounds (by omega) hlt hsmall
  obtain ⟨rfl, hneg⟩ := hzero rfl
  have hvalue := toReal_le_toReal hhalf isFinite_half (hc₁.isFinite (by decide))
  rw [toReal_ofHalves (by decide), Int.cast_one] at hvalue
  exact assemble_zero_bounds hsmall (exponent_nonpos hr hneg hc₁ hvalue hc)

/-! ### The power -/

/-- The nearest whole number is at most a half away. -/
theorem nearestInt_sub_le {a : ℤ} (hx : x.isFinite = true) (ha : x.place = some a) (k : ℕ) :
    2 * (x.nearestInt k * unitsPerOne - a * (2 ^ k : ℕ)).natAbs ≤ unitsPerOne := by
  obtain ⟨s, m, rfl, rfl⟩ := exists_fin_of_place hx ha
  have hnear := divNearest_sub_le (a := m.units * 2 ^ k) unitsPerOne_pos
  rw [nearestInt]
  generalize divNearest (m.units * 2 ^ k) unitsPerOne = n at hnear ⊢
  cases s with
  | false => simpa [signed] using hnear
  | true =>
    have hneg : (-n * unitsPerOne - -m.units * (2 ^ k : ℕ) : ℤ)
        = -((n * unitsPerOne : ℕ) - (m.units * 2 ^ k : ℕ)) := by
      push_cast
      ring
    rw [signed, if_pos rfl, if_pos rfl, hneg, Int.natAbs_neg]
    exact hnear

/-- The exponent is split into `128`th parts of one and a small rest. -/
theorem remainder_spec {a : ℤ} (hx : x.isFinite = true) (ha : x.place = some a)
    (hlow : -1075 * (unitsPerOne : ℤ) ≤ a) (hneg : a ≤ 0) :
    -137600 ≤ x.nearestInt 7 ∧ x.nearestInt 7 ≤ 0 ∧
      Small (2 ^ 32) (x - (ofInt (x.nearestInt 7)).scale (-7)) := by
  have hnear := nearestInt_sub_le hx ha 7
  have hunits := unitsPerOne_pos
  generalize x.nearestInt 7 = k at hnear ⊢
  have hk : -137600 ≤ k := by
    by_contra hlt
    have := Int.mul_le_mul_of_nonneg_right (show k ≤ -137601 by omega)
      (Int.natCast_nonneg unitsPerOne)
    omega
  have hk' : k ≤ 0 := by
    by_contra hgt
    have := Int.mul_le_mul_of_nonneg_right (show 1 ≤ k by omega) (Int.natCast_nonneg unitsPerOne)
    omega
  refine ⟨hk, hk', ?_⟩
  obtain ⟨hfin, hplace⟩ : ((ofInt k).scale (-7)).isFinite = true ∧
      ((ofInt k).scale (-7)).place = some (k * (2 ^ (places - 7) : ℕ)) :=
    place_scale_digits (k := 7) (by omega) (by decide)
  have hparts : unitsPerOne = 2 ^ 7 * 2 ^ (places - 7) := unitsPerOne_eq_mul (by decide)
  refine AtMost.of_place (place_sub hx hfin ha hplace) Nat.one_pos (short_grains (by decide)) ?_
  generalize 2 ^ (places - 7) = part at hparts ⊢
  have hfactor : k * (unitsPerOne : ℤ) = 128 * (k * part) := by
    rw [hparts]
    push_cast
    ring
  have hgrains := unitsPerOne_eq_mul_grain
  omega

theorem exp2Fraction_bounds (hlow : ofInt (-1075) ≤ x) (hx : x.isFinite = true)
    (hneg : x.toReal ≤ -(1 / 2 ^ 54)) :
    zero false ≤ x.exp2Fraction ∧ x.exp2Fraction ≤ ofInt 1 := by
  obtain ⟨a, ha, hba⟩ := exists_place_of_le hlow (place_ofInt_of_short (by decide))
  have ha0 : a ≤ 0 := by
    rw [toReal_of_place ha hx] at hneg
    by_contra hpos
    have hcast : (0 : ℝ) < a := by exact_mod_cast not_le.mp hpos
    have hprod := mul_pos hcast unit_pos
    linarith [show (0 : ℝ) < 1 / 2 ^ 54 by positivity]
  obtain ⟨hk, hk', hr⟩ := remainder_spec hx ha hba ha0
  rw [exp2Fraction]
  generalize x.nearestInt 7 = k at *
  obtain ⟨htailfin, htail⟩ := correction_spec k
  have htail' : Small 1 (ofBits (fractionalPower k).2) :=
    small_of_abs_toReal_le htailfin (htail.trans_eq (by rw [Nat.cast_one]))
  refine assemble_exponent_bounds hk hk' hr htail' (by decide +kernel) (by decide +kernel)
    (by decide +kernel) ?_
  rintro rfl
  have hzero : (ofInt 0).scale (-7) = zero false := by decide +kernel
  have hsub := toReal_sub_sub_le (hr.isFinite (by decide))
  rw [hzero, toReal_zero, sub_zero, abs_of_neg (by linarith : x.toReal < 0)] at hsub
  refine ⟨fractionalPower_zero.2, ?_⟩
  rw [hzero]
  linarith [(abs_le.mp hsub).2]

theorem toInt?_nonpos {n : ℤ} (hx : x ≤ zero false) (h : x.toInt? = some n) : n ≤ 0 := by
  obtain ⟨a, ha, hneg⟩ := le_zero_iff_place.mp hx
  cases x with
  | nan => simp [toInt?] at h
  | inf s => simp [toInt?] at h
  | fin s m =>
    rw [place_fin, Option.some.injEq] at ha
    rw [toInt?] at h
    split at h
    · obtain rfl := Option.some.inj h
      cases s with
      | true => exact Int.neg_nonpos_of_nonneg (Int.natCast_nonneg _)
      | false =>
        have hunits : m.units = 0 := by
          have : signed false m = m.units := rfl
          omega
        simp [hunits]
    · cases h

/-- **The size of the power of two.** It is between zero and one if the exponent is not positive. -/
theorem exp2_bounds (hx : x ≤ zero false) : zero false ≤ x.exp2 ∧ x.exp2 ≤ ofInt 1 := by
  have hlt : x.lt (ofInt 1024) = true := lt_of_le_of_lt hx (ofInt_pos (n := 1024) (by decide))
  rw [Binary64.exp2, isNaN_eq_false_of_ne (ne_nan_of_le hx).1, hlt]
  simp only [Bool.false_eq_true, if_false, Bool.not_true]
  split
  · exact ⟨zero_le_zero, le_of_lt one_pos⟩
  rename_i hlow
  have hgt : (ofInt (-1075)).lt x = true := by simpa using hlow
  have hword : (ofInt (-1075)).isFinite = true :=
    Within.isFinite (e := 11) (Within.ofInt (by decide)) (by decide)
  have hfin := isFinite_of_le_of_le (le_of_lt hgt) hx hword rfl
  split
  · exact twoPow_bounds (toInt?_nonpos hx ‹_›)
  have hvalue := toReal_le_toReal hx hfin rfl
  rw [toReal_zero] at hvalue
  have hpow : (twoPow (-54)).isFinite = true := isFinite_twoPow (by decide) (by decide)
  split
  · have hle := abs_toReal_le_of_abs_lt hfin hpow ‹_›
    rw [toReal_twoPow_neg_54, abs_of_nonpos hvalue] at hle
    exact one_add_bounds hfin (by linarith) hvalue
  · rename_i hlarge
    have hle := le_abs_toReal_of_not_abs_lt hfin hpow (Bool.eq_false_iff.mpr hlarge)
    rw [toReal_twoPow_neg_54, abs_of_nonpos hvalue] at hle
    exact exp2Fraction_bounds (le_of_lt hgt) hfin (by linarith)

end Binary64

/-- The functions of this library obey the laws that the evaluation in logarithms asks for. -/
theorem Elementary.logLaws_tabulated : Elementary.tabulated.LogLaws where
  abs_log2_le _ := Binary64.abs_log2_le
  log2_inf := rfl
  log2_nan := rfl
  exp2_zero := by
    rw [← Binary64.ofInt_zero, Elementary.expLaws_tabulated.eq_twoPow, Binary64.twoPow_zero]
  exp2_nan := rfl
  exp2_bounds _ := Binary64.exp2_bounds

end FriBound
