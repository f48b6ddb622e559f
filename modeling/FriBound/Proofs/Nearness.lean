import FriBound.Proofs.Intermediates
import FriBound.Proofs.Reals

/-!
# Nearness

Errors are counted in the exponent: two numbers are near up to `e` if each is at most `2 ^ e` times
the other, so that their binary logarithms differ by at most `e`. Errors then add along products,
quotients and powers, and a sum of near numbers is as near as they are. One rounding costs `eps`,
which is `2 ^ (-52)`. The relation takes in zero, which is near itself only.

Where numbers run out at the end of the format, an absolute amount is allowed on top
(`NearUpTo`).

## Main definitions

* `eps` — the cost of one rounding
* `Near`, `NearUpTo` — agreement up to a factor, and up to a factor and an amount

## Main results

* `Near.of_abs_sub_le`, `Near.abs_logb_sub_le` — from relative errors, and to errors of logarithms
* `Near.mul`, `Near.div`, `Near.add` — the errors of formulas
* `near_add`, `near_mul`, `near_div`, `near_sqrt` — the errors of the rounded operations
-/

namespace FriBound

/-- The cost of one rounding. -/
noncomputable def eps : ℝ := 1 / (2 ^ 52 : ℕ)

theorem eps_eq : eps = 1 / 2 ^ 52 := by
  rw [eps, Nat.cast_pow, Nat.cast_ofNat]

theorem eps_pos : 0 < eps := by
  rw [eps_eq]
  positivity

theorem two_mul_div_two_pow (a : ℝ) : a / 2 ^ 53 = eps / 2 * a := by
  rw [eps_eq]
  ring

/-- The numbers are not negative, and each is at most `2 ^ e` times the other. -/
structure Near (e a b : ℝ) : Prop where
  nonneg : 0 ≤ a
  nonneg' : 0 ≤ b
  le : a ≤ b * 2 ^ e
  le' : b ≤ a * 2 ^ e

namespace Near

variable {e f a b c d : ℝ}

theorem refl (ha : 0 ≤ a) : Near 0 a a := by
  refine ⟨ha, ha, ?_, ?_⟩ <;> simp

theorem mono (h : Near e a b) (hef : e ≤ f) : Near f a b := by
  have hpow : (2 : ℝ) ^ e ≤ 2 ^ f := Real.rpow_le_rpow_of_exponent_le one_le_two hef
  exact ⟨h.nonneg, h.nonneg', h.le.trans (mul_le_mul_of_nonneg_left hpow h.nonneg'),
    h.le'.trans (mul_le_mul_of_nonneg_left hpow h.nonneg)⟩

theorem trans (h : Near e a b) (h' : Near f b c) : Near (e + f) a c := by
  have hchain : ∀ {x y z e f : ℝ}, x ≤ y * 2 ^ e → y ≤ z * 2 ^ f → x ≤ z * 2 ^ (e + f) := by
    intro x y z e f hxy hyz
    calc x ≤ y * 2 ^ e := hxy
      _ ≤ z * 2 ^ f * 2 ^ e := by gcongr
      _ = z * 2 ^ (e + f) := by rw [mul_assoc, ← Real.rpow_add two_pos, add_comm f]
  exact ⟨h.nonneg, h'.nonneg', hchain h.le h'.le, add_comm f e ▸ hchain h'.le' h.le'⟩

theorem one_add_le_two_rpow (hd : 0 ≤ d) : 1 + 4 / 3 * d ≤ 2 ^ (2 * d) := by
  have hlog : (2 / 3 : ℝ) ≤ Real.log 2 := by
    have := Real.log_two_gt_d9
    linarith
  have hexp := Real.add_one_le_exp (Real.log 2 * (2 * d))
  rw [Real.rpow_def_of_pos two_pos]
  nlinarith

/-- A relative error of at most a quarter is at most twice that in the exponent. -/
theorem of_abs_sub_le (hb : 0 ≤ b) (hd : 0 ≤ d) (hd' : d ≤ 1 / 4) (h : |a - b| ≤ d * b) :
    Near (2 * d) a b := by
  obtain ⟨hlow, hhigh⟩ := abs_le.mp h
  have hpow := one_add_le_two_rpow hd
  have hdb : d * b ≤ 1 / 4 * b := mul_le_mul_of_nonneg_right hd' hb
  have ha : (1 - d) * b ≤ a := by linarith
  have ha0 : 0 ≤ a := by linarith
  refine ⟨ha0, hb, ?_, ?_⟩
  · calc a ≤ b * (1 + 4 / 3 * d) := by nlinarith
      _ ≤ b * 2 ^ (2 * d) := mul_le_mul_of_nonneg_left hpow hb
  · calc b ≤ (1 - d) * b * (1 + 4 / 3 * d) := by nlinarith [mul_nonneg hd hb]
      _ ≤ a * (1 + 4 / 3 * d) := mul_le_mul_of_nonneg_right ha (by linarith)
      _ ≤ a * 2 ^ (2 * d) := mul_le_mul_of_nonneg_left hpow ha0

theorem pos (h : Near e a b) (hb : 0 < b) : 0 < a := by
  refine h.nonneg.lt_of_ne fun h0 => ?_
  have := h.le'
  rw [← h0, zero_mul] at this
  linarith

/-- Near numbers have near logarithms. -/
theorem abs_logb_sub_le (h : Near e a b) (hb : 0 < b) :
    |Real.logb 2 a - Real.logb 2 b| ≤ e := by
  have hlog : ∀ {x y : ℝ}, 0 < x → 0 < y → x ≤ y * 2 ^ e →
      Real.logb 2 x ≤ Real.logb 2 y + e := by
    intro x y hx hy hxy
    calc Real.logb 2 x ≤ Real.logb 2 (y * 2 ^ e) := Real.logb_le_logb_of_le one_lt_two hx hxy
      _ = Real.logb 2 y + e := by
        rw [Real.logb_mul hy.ne' (Real.rpow_pos_of_pos two_pos e).ne',
          Real.logb_rpow two_pos (by norm_num)]
  have ha := h.pos hb
  have hle := hlog ha hb h.le
  have hle' := hlog hb ha h.le'
  rw [abs_le]
  constructor <;> linarith

/-- Near exponents give near powers. -/
theorem two_rpow (h : |a - b| ≤ e) : Near e (2 ^ a) (2 ^ b) := by
  have hpow : ∀ {x y : ℝ}, x ≤ y + e → (2 : ℝ) ^ x ≤ 2 ^ y * 2 ^ e := by
    intro x y hxy
    rw [← Real.rpow_add two_pos]
    exact Real.rpow_le_rpow_of_exponent_le one_le_two hxy
  obtain ⟨hlow, hhigh⟩ := abs_le.mp h
  exact ⟨by positivity, by positivity, hpow (by linarith), hpow (by linarith)⟩

theorem mul (h : Near e a b) (h' : Near f c d) : Near (e + f) (a * c) (b * d) := by
  have hprod : ∀ {x y z w : ℝ}, 0 ≤ z → 0 ≤ y → x ≤ y * 2 ^ e → z ≤ w * 2 ^ f →
      x * z ≤ y * w * 2 ^ (e + f) := by
    intro x y z w hz hy hxy hzw
    calc x * z ≤ y * 2 ^ e * (w * 2 ^ f) := by gcongr
      _ = y * w * 2 ^ (e + f) := by
        rw [Real.rpow_add two_pos]
        ring
  exact ⟨mul_nonneg h.nonneg h'.nonneg, mul_nonneg h.nonneg' h'.nonneg',
    hprod h'.nonneg h.nonneg' h.le h'.le, hprod h'.nonneg' h.nonneg h.le' h'.le'⟩

theorem inv (h : Near e a b) : Near e a⁻¹ b⁻¹ := by
  have hinv : ∀ {x y : ℝ}, 0 ≤ x → 0 ≤ y → y ≤ x * 2 ^ e → x ≤ y * 2 ^ e →
      x⁻¹ ≤ y⁻¹ * 2 ^ e := by
    intro x y hx hy hyx hxy
    rcases hy.eq_or_lt with rfl | hy
    · have hx0 : x = 0 := by linarith
      simp [hx0]
    · have hx : 0 < x := by
        refine hx.lt_of_ne ?_
        rintro rfl
        linarith
      rw [inv_mul_eq_div, le_div_iff₀ hy, inv_mul_le_iff₀ hx]
      exact hyx
  exact ⟨inv_nonneg.mpr h.nonneg, inv_nonneg.mpr h.nonneg',
    hinv h.nonneg h.nonneg' h.le' h.le, hinv h.nonneg' h.nonneg h.le h.le'⟩

theorem div (h : Near e a b) (h' : Near f c d) : Near (e + f) (a / c) (b / d) := by
  rw [div_eq_mul_inv, div_eq_mul_inv]
  exact h.mul h'.inv

theorem add (h : Near e a b) (h' : Near e c d) : Near e (a + c) (b + d) := by
  refine ⟨add_nonneg h.nonneg h'.nonneg, add_nonneg h.nonneg' h'.nonneg', ?_, ?_⟩
  · rw [add_mul]
    exact add_le_add h.le h'.le
  · rw [add_mul]
    exact add_le_add h.le' h'.le'

end Near

theorem two_rpow_le {e : ℝ} (he : 0 ≤ e) (he' : e ≤ 1) : (2 : ℝ) ^ e ≤ 1 + e := by
  have h := rpow_one_add_le_one_add_mul_self (s := 1) (by norm_num) he he'
  rw [mul_one] at h
  norm_num at h ⊢
  exact h

/-! ### Nearness up to an amount -/

/-- The numbers are not negative, and each is at most `2 ^ e` times the other and `h` more. -/
structure NearUpTo (e h a b : ℝ) : Prop where
  nonneg : 0 ≤ a
  nonneg' : 0 ≤ b
  le : a ≤ b * 2 ^ e + h
  le' : b ≤ a * 2 ^ e + h

theorem Near.upTo {e a b : ℝ} (h : Near e a b) : NearUpTo e 0 a b := by
  refine ⟨h.nonneg, h.nonneg', ?_, ?_⟩
  · rw [add_zero]
    exact h.le
  · rw [add_zero]
    exact h.le'

namespace NearUpTo

variable {e f g h a b c d : ℝ}

theorem mono (hab : NearUpTo e h a b) (hef : e ≤ f) (hhg : h ≤ g) : NearUpTo f g a b := by
  have hpow : (2 : ℝ) ^ e ≤ 2 ^ f := Real.rpow_le_rpow_of_exponent_le one_le_two hef
  exact ⟨hab.nonneg, hab.nonneg',
    hab.le.trans (add_le_add (mul_le_mul_of_nonneg_left hpow hab.nonneg') hhg),
    hab.le'.trans (add_le_add (mul_le_mul_of_nonneg_left hpow hab.nonneg) hhg)⟩

theorem trans (hab : NearUpTo e h a b) (hbc : NearUpTo f g b c) (he : 0 ≤ e) (hf : 0 ≤ f)
    (hh : 0 ≤ h) (hg : 0 ≤ g) : NearUpTo (e + f) (h * 2 ^ f + g * 2 ^ e) a c := by
  have hchain : ∀ {x y z e f h g : ℝ}, 0 ≤ f → 0 ≤ h → x ≤ y * 2 ^ e + h → y ≤ z * 2 ^ f + g →
      x ≤ z * 2 ^ (e + f) + (h * 2 ^ f + g * 2 ^ e) := by
    intro x y z e f h g hf hh hxy hyz
    have hpow : 1 ≤ (2 : ℝ) ^ f := Real.one_le_rpow one_le_two hf
    calc x ≤ y * 2 ^ e + h := hxy
      _ ≤ (z * 2 ^ f + g) * 2 ^ e + h * 2 ^ f := by
        gcongr
        exact le_mul_of_one_le_right hh hpow
      _ = z * 2 ^ (e + f) + (h * 2 ^ f + g * 2 ^ e) := by
        rw [Real.rpow_add two_pos]
        ring
  refine ⟨hab.nonneg, hbc.nonneg', hchain hf hh hab.le hbc.le, ?_⟩
  have hback := hchain he hg hbc.le' hab.le'
  rwa [add_comm f e, add_comm (g * (2 : ℝ) ^ e)] at hback

/-- The amounts add along a product of numbers that do not exceed one. -/
theorem mul (hab : NearUpTo e h a b) (hcd : NearUpTo f g c d) (hh : 0 ≤ h) (hg : 0 ≤ g)
    (ha : a * 2 ^ e ≤ 1) (hb : b * 2 ^ e ≤ 1) (hc : c * 2 ^ f ≤ 1) (hd : d * 2 ^ f ≤ 1) :
    NearUpTo (e + f) (h + g + h * g) (a * c) (b * d) := by
  have hprod : ∀ {x y z w : ℝ}, 0 ≤ z → 0 ≤ y → y * 2 ^ e ≤ 1 → w * 2 ^ f ≤ 1 →
      x ≤ y * 2 ^ e + h → z ≤ w * 2 ^ f + g → x * z ≤ y * w * 2 ^ (e + f) + (h + g + h * g) := by
    intro x y z w hz hy hy1 hw1 hxy hzw
    have hexp : y * w * (2 : ℝ) ^ (e + f) = y * 2 ^ e * (w * 2 ^ f) := by
      rw [Real.rpow_add two_pos]
      ring
    have hy0 : 0 ≤ y * (2 : ℝ) ^ e := by positivity
    calc x * z ≤ (y * 2 ^ e + h) * (w * 2 ^ f + g) :=
          mul_le_mul hxy hzw hz (add_nonneg hy0 hh)
      _ ≤ y * w * 2 ^ (e + f) + (h + g + h * g) := by
          rw [hexp]
          nlinarith [mul_le_mul_of_nonneg_right hy1 hg, mul_le_mul_of_nonneg_left hw1 hh]
  exact ⟨mul_nonneg hab.nonneg hcd.nonneg, mul_nonneg hab.nonneg' hcd.nonneg',
    hprod hcd.nonneg hab.nonneg' hb hd hab.le hcd.le,
    hprod hcd.nonneg' hab.nonneg ha hc hab.le' hcd.le'⟩

theorem add (hab : NearUpTo e h a b) (hcd : NearUpTo e g c d) :
    NearUpTo e (h + g) (a + c) (b + d) := by
  refine ⟨add_nonneg hab.nonneg hcd.nonneg, add_nonneg hab.nonneg' hcd.nonneg', ?_, ?_⟩
  · rw [add_mul]
    linarith [hab.le, hcd.le]
  · rw [add_mul]
    linarith [hab.le', hcd.le']

/-- Next to a larger number, an amount is a factor. -/
theorem near {r : ℝ} (hab : NearUpTo e h a b) (he : 0 ≤ e) (hr : 0 ≤ r) (hr' : r ≤ 1 / 4)
    (hh : h ≤ r * b) : Near (e + 2 * r) a b := by
  have hpow : (1 : ℝ) ≤ 2 ^ e := Real.one_le_rpow one_le_two he
  have hgrow := Near.one_add_le_two_rpow hr
  have hb := hab.nonneg'
  refine ⟨hab.nonneg, hb, ?_, ?_⟩
  · calc a ≤ b * 2 ^ e + r * b := hab.le.trans (add_le_add_right hh _)
      _ ≤ b * 2 ^ e * (1 + 4 / 3 * r) := by nlinarith [mul_nonneg hr hb]
      _ ≤ b * 2 ^ e * 2 ^ (2 * r) := by gcongr
      _ = b * 2 ^ (e + 2 * r) := by rw [mul_assoc, ← Real.rpow_add two_pos]
  · have hlow : b * (1 - r) ≤ a * 2 ^ e := by linarith [hab.le']
    have ha : 0 ≤ a * (2 : ℝ) ^ e := mul_nonneg hab.nonneg (by positivity)
    calc b ≤ b * (1 - r) * (1 + 4 / 3 * r) := by nlinarith [mul_nonneg hr hb]
      _ ≤ a * 2 ^ e * 2 ^ (2 * r) :=
          mul_le_mul hlow hgrow (by positivity) ha
      _ = a * 2 ^ (e + 2 * r) := by rw [mul_assoc, ← Real.rpow_add two_pos]

/-- Numbers of about a half at most stay below one. -/
theorem mul_two_rpow_le_one (hab : NearUpTo e h a b) (hb : b ≤ 1 / 2) (he : 0 ≤ e)
    (he' : e ≤ 1 / 4) (hh : h ≤ 1 / 16) : a * 2 ^ e ≤ 1 ∧ b * 2 ^ e ≤ 1 := by
  have hpow : (2 : ℝ) ^ e ≤ 5 / 4 := (two_rpow_le he (by linarith)).trans (by linarith)
  have hpos : (0 : ℝ) < 2 ^ e := Real.rpow_pos_of_pos two_pos e
  have hb' : b * 2 ^ e ≤ 5 / 8 := by nlinarith [hab.nonneg']
  have ha' : a ≤ 11 / 16 := by linarith [hab.le]
  exact ⟨by nlinarith [hab.nonneg], by linarith⟩

end NearUpTo

/-! ### The rounded operations -/

section Rounded

open Binary64 (unit toReal)

variable {x y : Binary64}

theorem near_of_le_max {a b h : ℝ} {k : ℕ} (hb : 0 ≤ b) (hk : 1 ≤ k ∧ k ≤ 52) (hlow : 2 ^ k * h ≤ b)
    (hab : |a - b| ≤ max (h / 2) (|b| / 2 ^ 53)) : Near (1 / 2 ^ k) a b := by
  have hpos : (0 : ℝ) < 2 ^ k := by positivity
  have hfine : (2 : ℝ) ^ k * 2 ≤ 2 ^ 53 := by
    rw [← pow_succ]
    exact pow_le_pow_right₀ one_le_two (by omega)
  have hcoarse : (2 : ℝ) ≤ 2 ^ k := by
    calc (2 : ℝ) = 2 ^ 1 := (pow_one 2).symm
      _ ≤ 2 ^ k := pow_le_pow_right₀ one_le_two hk.1
  have hrel : |a - b| ≤ 1 / (2 ^ k * 2) * b := by
    refine hab.trans (max_le ?_ ?_)
    · rw [one_div_mul_eq_div, le_div_iff₀ (by positivity)]
      linarith
    · rw [abs_of_nonneg hb, one_div_mul_eq_div]
      exact div_le_div_of_nonneg_left hb (by positivity) hfine
  have hd : 1 / ((2 : ℝ) ^ k * 2) ≤ 1 / 4 := one_div_le_one_div_of_le (by norm_num) (by linarith)
  have hcost : 2 * (1 / ((2 : ℝ) ^ k * 2)) = 1 / 2 ^ k := by
    field_simp
  exact hcost ▸ Near.of_abs_sub_le hb (by positivity) hd hrel

theorem near_add (hx : 0 ≤ x.toReal) (hy : 0 ≤ y.toReal) (hfin : (x + y).isFinite = true) :
    Near eps (x + y).toReal (x.toReal + y.toReal) := by
  have hnear := Binary64.toReal_add_sub_le hfin
  rw [abs_of_nonneg (add_nonneg hx hy), two_mul_div_two_pow] at hnear
  have hd : eps / 2 ≤ 1 / 4 := by
    rw [eps_eq]
    norm_num
  have h := Near.of_abs_sub_le (add_nonneg hx hy) (half_pos eps_pos).le hd hnear
  rwa [mul_div_cancel₀ _ two_ne_zero] at h

/-- A product is near the exact one if that is not close to the end of the format. -/
theorem near_mul {k : ℕ} (hk : 1 ≤ k ∧ k ≤ 52) (hx : 0 ≤ x.toReal) (hy : 0 ≤ y.toReal)
    (hfin : (x * y).isFinite = true) (hlow : 2 ^ k * unit ≤ x.toReal * y.toReal) :
    Near (1 / 2 ^ k) (x * y).toReal (x.toReal * y.toReal) :=
  near_of_le_max (mul_nonneg hx hy) hk hlow (Binary64.toReal_mul_sub_le hfin)

theorem near_div {k : ℕ} (hk : 1 ≤ k ∧ k ≤ 52) (hx : 0 ≤ x.toReal) (hy : y.isFinite = true)
    (hpos : (Binary64.zero false).lt y = true) (hfin : (x / y).isFinite = true)
    (hlow : 2 ^ k * unit ≤ x.toReal / y.toReal) :
    Near (1 / 2 ^ k) (x / y).toReal (x.toReal / y.toReal) :=
  near_of_le_max (div_nonneg hx (Binary64.toReal_pos hpos hy).le) hk hlow
    (Binary64.toReal_div_sub_le hfin hy hpos)

theorem nearUpTo_mul (hx : 0 ≤ x.toReal) (hy : 0 ≤ y.toReal) (hfin : (x * y).isFinite = true) :
    NearUpTo eps (unit / 2) (x * y).toReal (x.toReal * y.toReal) := by
  have hxy := Binary64.toReal_mul_nonneg hx hy hfin
  have hprod := mul_nonneg hx hy
  have hpow : 1 ≤ (2 : ℝ) ^ eps := Real.one_le_rpow one_le_two eps_pos.le
  have hunit := Binary64.unit_pos
  have hnear := Binary64.toReal_mul_sub_le hfin
  rcases le_max_iff.mp hnear with hab | hab
  · obtain ⟨hlow, hhigh⟩ := abs_le.mp hab
    have h1 := le_mul_of_one_le_right hprod hpow
    have h2 := le_mul_of_one_le_right hxy hpow
    exact ⟨hxy, hprod, by linarith, by linarith⟩
  · rw [abs_of_nonneg hprod, two_mul_div_two_pow] at hab
    have hd : eps / 2 ≤ 1 / 4 := by
      rw [eps_eq]
      norm_num
    have h := Near.of_abs_sub_le hprod (half_pos eps_pos).le hd hab
    rw [mul_div_cancel₀ _ two_ne_zero] at h
    exact h.upTo.mono le_rfl (half_pos hunit).le

theorem near_sqrt (hx : x.isFinite = true) (hpos : (Binary64.zero false).lt x = true) :
    Near (2 * eps) x.sqrt.toReal (√x.toReal) := by
  have hnear := Binary64.toReal_sqrt_sub_le hx hpos
  rw [← one_div_mul_eq_div, ← eps_eq] at hnear
  have hd : eps ≤ 1 / 4 := by
    rw [eps_eq]
    norm_num
  exact Near.of_abs_sub_le (Real.sqrt_nonneg _) eps_pos.le hd hnear

end Rounded

/-! ### Errors along rounded operations -/

section Formulas

open Binary64 (unit toReal)

variable {e f s t : ℝ} {x y : Binary64}

theorem Near.half_le {a b : ℝ} (h : Near e a b) (he : e ≤ 1) : b / 2 ≤ a := by
  have hle := (h.mono he).le'
  rw [Real.rpow_one] at hle
  linarith

/-- A whole power of two of units, as a power of two. -/
theorem two_pow_mul_unit_le {k : ℕ} (ht : 0 < t) (h : k - 1074 ≤ Real.logb 2 t) :
    2 ^ k * unit ≤ t := by
  have hpow : (2 : ℝ) ^ k * unit = 2 ^ ((k : ℝ) - 1074) := by
    rw [Binary64.unit_eq, ← Real.rpow_natCast, ← Real.rpow_add two_pos, sub_eq_add_neg]
  rw [hpow]
  exact (Real.le_logb_iff_rpow_le one_lt_two ht).mp h

theorem unit_le : unit ≤ 1 / 2 ^ 100 := by
  have h := two_pow_mul_unit_le (k := 100) one_pos (by norm_num)
  rw [le_div_iff₀ (by positivity)]
  linarith

theorem two_pow_mul_unit_le_one : 2 ^ (52 + 1) * unit ≤ 1 :=
  two_pow_mul_unit_le one_pos (by norm_num)

theorem Near.add_rounded (hx : Near e x.toReal s) (hy : Near e y.toReal t)
    (hfin : (x + y).isFinite = true) : Near (e + eps) (x + y).toReal (s + t) :=
  add_comm eps e ▸ (near_add hx.nonneg hy.nonneg hfin).trans (hx.add hy)

theorem Near.mul_rounded {k : ℕ} (hx : Near e x.toReal s) (hy : Near f y.toReal t)
    (hfin : (x * y).isFinite = true) (hef : e + f ≤ 1) (hk : 1 ≤ k ∧ k ≤ 52)
    (hlow : 2 ^ (k + 1) * unit ≤ s * t) : Near (e + f + 1 / 2 ^ k) (x * y).toReal (s * t) := by
  have hexact := hx.mul hy
  have hhalf := hexact.half_le hef
  rw [pow_succ] at hlow
  exact add_comm (1 / 2 ^ k) (e + f) ▸
    (near_mul hk hx.nonneg hy.nonneg hfin (by linarith)).trans hexact

theorem Near.div_rounded {k : ℕ} (hx : Near e x.toReal s) (hy : Near f y.toReal t)
    (hpos : (Binary64.zero false).lt y = true) (hyfin : y.isFinite = true)
    (hfin : (x / y).isFinite = true) (hef : e + f ≤ 1) (hk : 1 ≤ k ∧ k ≤ 52)
    (hlow : 2 ^ (k + 1) * unit ≤ s / t) : Near (e + f + 1 / 2 ^ k) (x / y).toReal (s / t) := by
  have hexact := hx.div hy
  have hhalf := hexact.half_le hef
  rw [pow_succ] at hlow
  exact add_comm (1 / 2 ^ k) (e + f) ▸
    (near_div hk hx.nonneg hyfin hpos hfin (by linarith)).trans hexact

/-- A running sum of numbers that are not negative. -/
theorem near_foldl_add {ys : List Binary64} (hx : 0 ≤ x.toReal) (hys : ∀ y ∈ ys, 0 ≤ y.toReal)
    (hfin : (ys.foldl (· + ·) x).isFinite = true) :
    Near (ys.length * eps) (ys.foldl (· + ·) x).toReal (x.toReal + (ys.map toReal).sum) := by
  induction ys generalizing x with
  | nil => simpa using Near.refl hx
  | cons y ys ih =>
    obtain ⟨hy, hys⟩ := List.forall_mem_cons.mp hys
    rw [List.foldl_cons] at hfin ⊢
    have hfirst : Scalar.isFinite (x + y) = true := (Scalar.isFinite_foldl_add hfin).1
    have hstep := near_add hx hy hfirst
    have hrest := ih hstep.nonneg hys hfin
    have hsum : 0 ≤ (ys.map toReal).sum := List.sum_nonneg fun z hz => by
      obtain ⟨w, hw, rfl⟩ := List.mem_map.mp hz
      exact hys w hw
    have hshift := hstep.add ((Near.refl hsum).mono eps_pos.le)
    rw [List.map_cons, List.sum_cons, List.length_cons, ← add_assoc]
    refine (hrest.trans hshift).mono (le_of_eq ?_)
    push_cast
    ring

theorem near_sum {ys : List Binary64} (hys : ∀ y ∈ ys, 0 ≤ y.toReal)
    (hfin : (ys.foldl (· + ·) (-Binary64.ofInt 0)).isFinite = true) :
    Near (ys.length * eps) (ys.foldl (· + ·) (-Binary64.ofInt 0)).toReal (ys.map toReal).sum := by
  have hnear := near_foldl_add Binary64.toReal_neg_zero.ge hys hfin
  rwa [Binary64.toReal_neg_zero, zero_add] at hnear

theorem near_exact (ht : 0 ≤ t) (h : x.toReal = t) : Near 0 x.toReal t := h ▸ Near.refl (h ▸ ht)

end Formulas

end FriBound
