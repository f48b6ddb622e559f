import FriBound.Proofs.Accuracy
import FriBound.Proofs.LogSum

/-!
# The error of the logarithm of a sum of powers

In logarithms the error that matters is the absolute one. A sum of numbers of size `B` is off by
what the numbers are off, and by `B / 2` roundings of a one.

Powers are taken of the distances to the largest exponent. A large distance is off by more than a
small one, but its power is small: `2 ^ (-d) * d` is at most one. So each power is off by two
roundings of a one at most, and the sum of the powers is at least one.

## Main definitions

* `Off` — a number that is some roundings of a one away from a value
* `Binary64.power` — the power of two with a finite exponent, zero otherwise

## Main results

* `Off.add`, `Off.sub`, `Off.exact_mul` — the errors of formulas
* `Elementary.off_logSum` — the logarithm of a sum of powers
-/

namespace FriBound

namespace Binary64

variable {x y : Binary64}

/-- The logarithm of a positive number. -/
theorem abs_logb_toReal_le (hx : x.isFinite = true) (hpos : (zero false).lt x = true) :
    |Real.logb 2 x.toReal| ≤ 1074 := by
  have hvalue := toReal_pos hpos hx
  obtain ⟨a, ha, hlt⟩ := isFinite_iff_place.mp hx
  have hunit := unit_pos
  have hplaces : (2 : ℝ) ^ topDigits * unit ≤ 2 ^ (1074 : ℝ) := by
    rw [unit_eq, ← Real.rpow_natCast, ← Real.rpow_add two_pos]
    exact Real.rpow_le_rpow_of_exponent_le one_le_two (by norm_num [topDigits])
  rw [toReal_of_place ha hx] at hvalue ⊢
  have ha0 : 0 < a := by exact_mod_cast (mul_pos_iff_of_pos_right hunit).mp hvalue
  have hone : (1 : ℝ) ≤ a := by exact_mod_cast ha0
  have htop : (a : ℝ) ≤ 2 ^ topDigits := by
    rw [unitLimit_eq] at hlt
    have hle : a ≤ (2 ^ topDigits : ℕ) := by omega
    exact_mod_cast hle
  rw [abs_le, Real.le_logb_iff_rpow_le one_lt_two hvalue,
    Real.logb_le_iff_le_rpow one_lt_two hvalue, ← unit_eq]
  exact ⟨le_mul_of_one_le_left hunit.le hone,
    (mul_le_mul_of_nonneg_right htop hunit.le).trans hplaces⟩

/-- The power of two with a finite exponent. -/
noncomputable def power (x : Binary64) : ℝ :=
  if x.isFinite = true then Exact.weight (x.toReal : EReal) else 0

theorem power_of_isFinite (hx : x.isFinite = true) : x.power = 2 ^ x.toReal :=
  (if_pos hx).trans (Exact.weight_coe _)

theorem power_negInf : (inf true).power = 0 := if_neg Bool.false_ne_true

theorem power_nonneg (x : Binary64) : 0 ≤ x.power := by
  rw [power]
  split
  · exact Exact.weight_nonneg _
  · exact le_rfl

end Binary64

open Binary64 (unit toReal ofInt zero)

/-! ### Absolute errors -/

/-- The number is at most `e` roundings of a one away from `t`. -/
def Off (e : ℝ) (x : Binary64) (t : ℝ) : Prop := |x.toReal - t| ≤ e * eps

namespace Off

variable {e f s t B C : ℝ} {x y : Binary64}

theorem exact (h : x.toReal = t) : Off 0 x t := by
  rw [Off, h, sub_self, abs_zero, zero_mul]

theorem mono (h : Off e x t) (hef : e ≤ f) : Off f x t :=
  h.trans (mul_le_mul_of_nonneg_right hef eps_pos.le)

theorem abs_le (h : Off e x t) (he : e * eps ≤ 1) (ht : |t| ≤ B) : |x.toReal| ≤ B + 1 := by
  calc |x.toReal| = |(x.toReal - t) + t| := by rw [sub_add_cancel]
    _ ≤ |x.toReal - t| + |t| := abs_add_le _ _
    _ ≤ B + 1 := by linarith [h.trans he]

/-- What rounding adds. -/
theorem of_rounded {a b c : ℝ} (hround : |a - b| ≤ |b| / 2 ^ 53) (hb : |b - c| ≤ e * eps)
    (he : e * eps ≤ 1) (hc : |c| ≤ B) : |a - c| ≤ (e + (B + 1) / 2) * eps := by
  have hsize : |b| ≤ B + 1 := by
    calc |b| = |(b - c) + c| := by rw [sub_add_cancel]
      _ ≤ |b - c| + |c| := abs_add_le _ _
      _ ≤ B + 1 := by linarith
  have heps := eps_pos
  calc |a - c| = |(a - b) + (b - c)| := by rw [sub_add_sub_cancel]
    _ ≤ |a - b| + |b - c| := abs_add_le _ _
    _ ≤ eps / 2 * (B + 1) + e * eps := by
      rw [two_mul_div_two_pow] at hround
      gcongr
      exact hround.trans (mul_le_mul_of_nonneg_left hsize (half_pos heps).le)
    _ = (e + (B + 1) / 2) * eps := by ring

theorem add (hx : Off e x s) (hy : Off f y t) (hfin : (x + y).isFinite = true)
    (hef : (e + f) * eps ≤ 1) (hB : |s + t| ≤ B) : Off (e + f + (B + 1) / 2) (x + y) (s + t) := by
  refine of_rounded (Binary64.toReal_add_sub_le hfin) ?_ hef hB
  calc |x.toReal + y.toReal - (s + t)| = |(x.toReal - s) + (y.toReal - t)| := by
        rw [add_sub_add_comm]
    _ ≤ |x.toReal - s| + |y.toReal - t| := abs_add_le _ _
    _ ≤ (e + f) * eps := by
      rw [add_mul]
      exact add_le_add hx hy

theorem sub (hx : Off e x s) (hy : Off f y t) (hfin : (x - y).isFinite = true)
    (hef : (e + f) * eps ≤ 1) (hB : |s - t| ≤ B) : Off (e + f + (B + 1) / 2) (x - y) (s - t) := by
  refine of_rounded (Binary64.toReal_sub_sub_le hfin) ?_ hef hB
  calc |x.toReal - y.toReal - (s - t)| = |(x.toReal - s) - (y.toReal - t)| := by
        rw [sub_sub_sub_comm]
    _ ≤ |x.toReal - s| + |y.toReal - t| := abs_sub _ _
    _ ≤ (e + f) * eps := by
      rw [add_mul]
      exact add_le_add hx hy

/-- A product with an exact factor. -/
theorem exact_mul (hx : x.toReal = s) (hs : |s| ≤ C) (hy : Off f y t)
    (hfin : (x * y).isFinite = true) (hf : C * f * eps ≤ 1) (hB : |s * t| ≤ B) :
    Off (C * f + (B + 1) / 2) (x * y) (s * t) := by
  have heps := eps_pos
  have hprod : |x.toReal * y.toReal - s * t| ≤ C * f * eps := by
    rw [hx, ← mul_sub, abs_mul, mul_assoc]
    exact mul_le_mul hs hy (abs_nonneg _) ((abs_nonneg s).trans hs)
  have hround := Binary64.toReal_mul_sub_le hfin
  rcases le_max_iff.mp hround with hsmall | hlarge
  · have hunit : unit ≤ eps := unit_le.trans (by rw [eps_eq]; norm_num)
    have hB0 : 0 ≤ B := (abs_nonneg _).trans hB
    calc |(x * y).toReal - s * t|
        = |((x * y).toReal - x.toReal * y.toReal) + (x.toReal * y.toReal - s * t)| := by
          rw [sub_add_sub_cancel]
      _ ≤ unit / 2 + C * f * eps := (abs_add_le _ _).trans (add_le_add hsmall hprod)
      _ ≤ (C * f + (B + 1) / 2) * eps := by nlinarith
  · exact of_rounded hlarge hprod hf hB

end Off

/-- The logarithm of a positive number that is near a value. -/
theorem Elementary.Accurate.off_log2 {E : Elementary} (h : E.Accurate) {e t B : ℝ} {x : Binary64}
    (hx : x.isFinite = true) (hpos : (zero false).lt x = true)
    (hsize : |Real.logb 2 x.toReal| ≤ B) (hnear : Near (e * eps) x.toReal t) (ht : 0 < t) :
    Off (B + 1 + e) (E.log2 x) (Real.logb 2 t) := by
  have hunit : unit ≤ eps := unit_le.trans (by rw [eps_eq]; norm_num)
  have hlog : |(E.log2 x).toReal - Real.logb 2 x.toReal| ≤ eps * B + eps :=
    (h.log2_sub_le x hx hpos).trans (add_le_add (mul_le_mul_of_nonneg_left hsize eps_pos.le) hunit)
  calc |(E.log2 x).toReal - Real.logb 2 t|
      = |((E.log2 x).toReal - Real.logb 2 x.toReal) + (Real.logb 2 x.toReal - Real.logb 2 t)| := by
        rw [sub_add_sub_cancel]
    _ ≤ |(E.log2 x).toReal - Real.logb 2 x.toReal| + |Real.logb 2 x.toReal - Real.logb 2 t| :=
        abs_add_le _ _
    _ ≤ (eps * B + eps) + e * eps := add_le_add hlog (hnear.abs_logb_sub_le ht)
    _ = (B + 1 + e) * eps := by ring

/-! ### Powers of distances -/

theorem abs_two_rpow_sub_one_le {d : ℝ} (hd : |d| ≤ 1) : |(2 : ℝ) ^ d - 1| ≤ |d| := by
  obtain ⟨hlow, hhigh⟩ := abs_le.mp hd
  have hlog : 0 ≤ Real.log 2 ∧ Real.log 2 ≤ 1 := by
    constructor <;> linarith [Real.log_two_gt_d9, Real.log_two_lt_d9]
  have hexp := Real.add_one_le_exp (Real.log 2 * d)
  rw [← Real.rpow_def_of_pos two_pos] at hexp
  rcases le_total 0 d with hsign | hsign
  · rw [abs_of_nonneg hsign, abs_le]
    have hgrow := two_rpow_le hsign hhigh
    constructor <;> nlinarith
  · have hone : (2 : ℝ) ^ d ≤ 1 := Real.rpow_le_one_of_one_le_of_nonpos one_le_two hsign
    rw [abs_of_nonpos hsign, abs_le]
    constructor <;> nlinarith

theorem mul_two_rpow_neg_le_one {d : ℝ} (hd : 0 ≤ d) : d * 2 ^ (-d) ≤ 1 := by
  have hlog : 1 / 2 ≤ Real.log 2 := by linarith [Real.log_two_gt_d9]
  have he : 2 ≤ Real.exp 1 := by linarith [Real.exp_one_gt_d9]
  have hexp := Real.add_one_le_exp (Real.log 2 * d - 1)
  have hle : d ≤ 2 ^ d := by
    calc d ≤ 2 * (Real.log 2 * d) := by nlinarith
      _ ≤ Real.exp 1 * Real.exp (Real.log 2 * d - 1) := by
        gcongr
        linarith
      _ = 2 ^ d := by rw [← Real.exp_add, add_sub_cancel, Real.rpow_def_of_pos two_pos]
  rw [Real.rpow_neg two_pos.le]
  exact mul_inv_le_one_of_le₀ hle (by positivity)

/-- A relative error of an exponent does not matter where the power is small. -/
theorem abs_two_rpow_sub_le {d d' : ℝ} (hd : d ≤ 0) (hlow : -2 ^ 23 ≤ d)
    (h : |d' - d| ≤ |d| / 2 ^ 53) : |(2 : ℝ) ^ d' - 2 ^ d| ≤ eps / 2 := by
  rw [two_mul_div_two_pow, abs_of_nonpos hd] at h
  have hmax : |d' - d| ≤ 1 := by
    refine h.trans ?_
    rw [eps_eq]
    norm_num
    linarith
  have hsplit : (2 : ℝ) ^ d' - 2 ^ d = 2 ^ d * (2 ^ (d' - d) - 1) := by
    rw [mul_sub, ← Real.rpow_add two_pos, add_sub_cancel, mul_one]
  have hpos : (0 : ℝ) < 2 ^ d := Real.rpow_pos_of_pos two_pos d
  have hsmall : -d * 2 ^ d ≤ 1 := by
    have := mul_two_rpow_neg_le_one (neg_nonneg.mpr hd)
    rwa [neg_neg] at this
  rw [hsplit, abs_mul, abs_of_pos hpos]
  calc (2 : ℝ) ^ d * |2 ^ (d' - d) - 1| ≤ 2 ^ d * (eps / 2 * -d) := by
        gcongr
        exact (abs_two_rpow_sub_one_le hmax).trans h
    _ = eps / 2 * (-d * 2 ^ d) := by ring
    _ ≤ eps / 2 := mul_le_of_le_one_right (half_pos eps_pos).le hsmall

theorem abs_sum_sub_le {ι : Type} {f g : ι → ℝ} {d : ℝ} {xs : List ι}
    (h : ∀ x ∈ xs, |f x - g x| ≤ d) : |(xs.map f).sum - (xs.map g).sum| ≤ xs.length * d := by
  induction xs with
  | nil => simp
  | cons x xs ih =>
    obtain ⟨hx, hxs⟩ := List.forall_mem_cons.mp h
    rw [List.map_cons, List.map_cons, List.sum_cons, List.sum_cons, add_sub_add_comm,
      List.length_cons]
    push_cast
    linarith [abs_add_le (f x - g x) ((xs.map f).sum - (xs.map g).sum), ih hxs]

/-! ### The logarithm of the sum -/

namespace Elementary

open Binary64

variable {E : Elementary} {x t : Binary64} {xs : List Binary64} {B : ℝ}

/-- The power of a distance to the largest exponent. -/
theorem exp2_sub_spec (h : E.LogLaws) (hacc : E.Accurate) (hx : x = inf true ∨ x.isFinite = true)
    (ht : t.isFinite = true) (hxt : x ≤ t) (hxB : |x.toReal| ≤ 2 ^ 22) (htB : |t.toReal| ≤ 2 ^ 22) :
    0 ≤ (E.exp2 (x - t)).toReal ∧
      |(E.exp2 (x - t)).toReal - x.power * 2 ^ (-t.toReal)| ≤ 2 * eps := by
  rcases hx with rfl | hx
  · rw [inf_sub true ht, hacc.exp2_negInf, toReal_zero]
    rw [power_negInf, MulZeroClass.zero_mul, sub_zero, abs_zero]
    exact ⟨le_rfl, by linarith [eps_pos]⟩
  have hle := toReal_le_toReal hxt hx ht
  have hdist : (x - t).isFinite = true :=
    ((within_of_abs_toReal_le hx hxB).sub (within_of_abs_toReal_le ht htB) (e := 23)
      (by decide)).isFinite (by decide)
  have hneg := sub_nonpos hxt ht
  obtain ⟨hlow, hhigh⟩ := h.exp2_bounds _ hneg
  have hfin := isFinite_of_le_of_le hlow hhigh rfl isFinite_one
  have hdist' := toReal_le_toReal hneg hdist rfl
  rw [toReal_zero] at hdist'
  have hone : (2 : ℝ) ^ (x - t).toReal ≤ 1 :=
    Real.rpow_le_one_of_one_le_of_nonpos one_le_two hdist'
  have hlarge : -2 ^ 23 ≤ x.toReal - t.toReal := by
    linarith [(abs_le.mp hxB).1, (abs_le.mp htB).2]
  have hmoved := abs_two_rpow_sub_le (sub_nonpos_of_le hle) hlarge (toReal_sub_sub_le hdist)
  have hpower : x.power * 2 ^ (-t.toReal) = 2 ^ (x.toReal - t.toReal) := by
    rw [power_of_isFinite hx, ← Real.rpow_add two_pos, sub_eq_add_neg]
  have hunit : unit ≤ eps / 2 := unit_le.trans (by rw [eps_eq]; norm_num)
  refine ⟨toReal_nonneg hlow hfin, ?_⟩
  rw [hpower]
  have hresult : |(E.exp2 (x - t)).toReal - 2 ^ (x - t).toReal| ≤ eps + eps / 2 :=
    (hacc.exp2_sub_le _ hdist hfin).trans (by nlinarith [eps_pos])
  calc |(E.exp2 (x - t)).toReal - 2 ^ (x.toReal - t.toReal)|
      = |((E.exp2 (x - t)).toReal - 2 ^ (x - t).toReal)
          + (2 ^ (x - t).toReal - 2 ^ (x.toReal - t.toReal))| := by rw [sub_add_sub_cancel]
    _ ≤ |(E.exp2 (x - t)).toReal - 2 ^ (x - t).toReal|
          + |2 ^ (x - t).toReal - 2 ^ (x.toReal - t.toReal)| := abs_add_le _ _
    _ ≤ 2 * eps := by linarith

theorem sum_power_eq (t : ℝ) (xs : List Binary64) :
    (xs.map power).sum = 2 ^ t * (xs.map fun x => x.power * 2 ^ (-t)).sum := by
  rw [List.sum_map_mul_right, mul_left_comm, ← Real.rpow_add two_pos, add_neg_cancel,
    Real.rpow_zero, mul_one]

/-- The sum of the powers of the distances, which is at least one. -/
theorem near_powerSum (h : E.LogLaws) (hacc : E.Accurate)
    (hxs : ∀ x ∈ xs, (x = inf true ∨ x.isFinite = true) ∧ x ≤ t ∧ |x.toReal| ≤ 2 ^ 22)
    (ht : t ∈ xs) (hfin : t.isFinite = true) (hlen : (xs.length : ℝ) ≤ 2 ^ 20)
    (hsum : (E.powerSum t xs).isFinite = true) :
    1 ≤ (xs.map fun x => x.power * 2 ^ (-t.toReal)).sum ∧
      Near (5 * xs.length * eps) (E.powerSum t xs).toReal
        (xs.map fun x => x.power * 2 ^ (-t.toReal)).sum := by
  have htB := (hxs t ht).2.2
  have hterm : ∀ x ∈ xs, 0 ≤ (E.exp2 (x - t)).toReal ∧
      |(E.exp2 (x - t)).toReal - x.power * 2 ^ (-t.toReal)| ≤ 2 * eps := by
    intro x hx
    obtain ⟨hfinite, hxt, hxB⟩ := hxs x hx
    exact exp2_sub_spec h hacc hfinite hfin hxt hxB htB
  have hone : 1 ≤ (xs.map fun x => x.power * 2 ^ (-t.toReal)).sum := by
    have hall : ∀ w ∈ xs.map fun x => x.power * 2 ^ (-t.toReal), 0 ≤ w := by
      intro w hw
      obtain ⟨x, -, rfl⟩ := List.mem_map.mp hw
      have := x.power_nonneg
      positivity
    have htop : t.power * 2 ^ (-t.toReal) = 1 := by
      rw [power_of_isFinite hfin, ← Real.rpow_add two_pos, add_neg_cancel, Real.rpow_zero]
    exact htop ▸ List.single_le_sum hall _ (List.mem_map_of_mem ht)
  refine ⟨hone, ?_⟩
  have hys : ∀ y ∈ xs.map fun x => E.exp2 (x - t), 0 ≤ y.toReal := by
    intro y hy
    obtain ⟨x, hx, rfl⟩ := List.mem_map.mp hy
    exact (hterm x hx).1
  have hrounded := near_sum hys hsum
  rw [List.length_map, List.map_map] at hrounded
  have hcount : (xs.length : ℝ) * (2 * eps) ≤ 1 / 4 := by
    have : (xs.length : ℝ) * (2 * eps) ≤ 2 ^ 20 * (2 * eps) :=
      mul_le_mul_of_nonneg_right hlen (by linarith [eps_pos])
    refine this.trans ?_
    rw [eps_eq]
    norm_num
  have hpowers := (abs_sum_sub_le fun x hx => (hterm x hx).2).trans
    (le_mul_of_one_le_right (by have := eps_pos; positivity) hone)
  have hexact := Near.of_abs_sub_le (by linarith) (by have := eps_pos; positivity) hcount hpowers
  exact (hrounded.trans hexact).mono (by linarith)

/-- A number between one and `2 ^ 53` has a small logarithm. -/
theorem abs_logb_toReal_le_of_one_le {y : Binary64} (hlow : ofInt 1 ≤ y)
    (hhigh : y ≤ ofInt (2 ^ 53)) (hfin : y.isFinite = true) : |Real.logb 2 y.toReal| ≤ 53 := by
  have hone := toReal_le_toReal hlow isFinite_one hfin
  have htop := toReal_le_toReal hhigh hfin (isFinite_two_pow (by decide))
  rw [toReal_ofInt (by decide), Int.cast_one] at hone
  rw [toReal_ofInt (by decide)] at htop
  rw [abs_of_nonneg (Real.logb_nonneg one_lt_two hone),
    Real.logb_le_iff_le_rpow one_lt_two (by linarith)]
  exact htop.trans_eq (by norm_num)

/-- **The error of the logarithm of a sum of powers**, for exponents of size `B`. -/
theorem off_logSum (h : E.LogLaws) (hacc : E.Accurate)
    (hxs : ∀ x ∈ xs, (x = inf true ∨ x.isFinite = true) ∧ |x.toReal| ≤ B)
    (hex : ∃ x ∈ xs, x.isFinite = true) (hB : B ≤ 2 ^ 22) (hlen : (xs.length : ℝ) ≤ 2 ^ 20) :
    Off (5 * xs.length + B / 2 + 100) (E.logSum xs) (Real.logb 2 (xs.map power).sum) := by
  have hnot : ∀ x ∈ xs, x ≠ inf false ∧ x ≠ nan := by
    intro x hx
    rcases (hxs x hx).1 with rfl | hfin
    · simp
    · constructor <;> rintro rfl <;> exact absurd hfin Bool.false_ne_true
  obtain ⟨t, ht, htop, hfin, hall⟩ := exists_largest (fun x hx => (hnot x hx).1) hex
  have hle : ∀ x ∈ xs, x ≤ t := fun x hx => hall x hx (hnot x hx).2
  obtain ⟨hlow, hhigh⟩ := powerSum_bounds h.sumLaws ht hfin hle
  have hsum := isFinite_of_le_of_le hlow hhigh isFinite_one (isFinite_two_pow (by decide))
  have hsumpos := lt_of_lt_of_le one_pos hlow
  obtain ⟨hone, hnear⟩ := near_powerSum h hacc
    (fun x hx => ⟨(hxs x hx).1, hle x hx, (hxs x hx).2.trans hB⟩) ht hfin hlen hsum
  have hcount : (0 + (53 + 1 + 5 * (xs.length : ℝ))) * eps ≤ 1 := by
    have heps := eps_pos
    calc (0 + (53 + 1 + 5 * (xs.length : ℝ))) * eps ≤ (0 + (53 + 1 + 5 * 2 ^ 20)) * eps := by gcongr
      _ ≤ 1 := by
        rw [eps_eq]
        norm_num
  -- The sum is between one and `2 ^ 53`, so its logarithm and the error of that are small.
  have hvalue := abs_logb_toReal_le_of_one_le hlow hhigh hsum
  have hpos := lt_of_lt_of_le zero_lt_one hone
  have hlog := hacc.off_log2 hsum hsumpos hvalue hnear hpos
  have hsplit := sum_power_eq t.toReal xs
  generalize (xs.map fun x => x.power * 2 ^ (-t.toReal)).sum = w at *
  have hw : |Real.logb 2 w| ≤ 54 := by
    have hdiff := abs_le.mp (hnear.abs_logb_sub_le hpos)
    have hvalue' := abs_le.mp hvalue
    rw [abs_le]
    constructor <;> linarith [eps_pos]
  have htotal : |t.toReal + Real.logb 2 w| ≤ B + 54 :=
    (abs_add_le _ _).trans (by linarith [(hxs t ht).2])
  have hresult : (E.logSum xs).isFinite = true := by
    have hwithin : ∀ x ∈ xs, x.isFinite = true → Within 22 x := fun x hx hx' =>
      within_of_abs_toReal_le hx' ((hxs x hx).2.trans hB)
    exact (within_logSum h (by decide)
      (fun x hx => (hxs x hx).1.imp_right (hwithin x hx)) ⟨t, ht, hwithin t ht hfin⟩).isFinite
      (by decide)
  rw [logSum_of_isFinite htop hfin] at hresult ⊢
  rw [hsplit, Real.logb_mul (by positivity) hpos.ne', Real.logb_rpow two_pos (by norm_num)]
  exact ((Off.exact rfl).add hlog hresult hcount htotal).mono (by linarith)

end Elementary

end FriBound
