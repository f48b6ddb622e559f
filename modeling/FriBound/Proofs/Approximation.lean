import FriBound.Proofs.Nearness

/-!
# Absolute errors along a formula

The logarithm and the power are polynomials between table entries, evaluated with a rounding at each
step. How far such a formula is off is found by going through it once: each intermediate number is
near a real number of known size (`Approx`), and an operation adds to the errors of its sides what
its own rounding may lose. Sizes and errors are numerals, so each step leaves only arithmetic.

Two steps are finer than that. What a sum `x + y` has lost is computed by `x - (x + y) + y`, nearly
without an error however large `x` is (`Approx.rest`). And a formula that ends in a sum is one
rounding away from the exact sum of its two parts (`SumNear`), which keeps the order of results
even where their difference is less than the rounding loses.

## Main definitions

* `Binary64.Approx` — a number near a real number of bounded size
* `Binary64.SumNear` — a sum that is rounded once, and what it is near to

## Main results

* `Binary64.Approx.add`, `Binary64.Approx.mul`, `Binary64.Approx.rest` — errors of single steps
* `Binary64.toReal_sub_leading_le` — the digits that are cut off
* `Binary64.SumNear.le` — the order of sums
-/

namespace FriBound

open Binary64 (unit toReal Within)

variable {b c d e f g s t : ℝ} {x y z : Binary64}

/-- The number is finite and at most `e` away from `t`, which is at most `b` in size. -/
structure Approx (b e t : ℝ) (x : Binary64) : Prop where
  isFinite : x.isFinite = true
  size : |t| ≤ b
  error : |x.toReal - t| ≤ e

namespace Approx

theorem exact (hx : x.isFinite = true) (h : |x.toReal| ≤ b) : Approx b 0 x.toReal x :=
  ⟨hx, h, by rw [sub_self, abs_zero]⟩

/-- A finite number near another one. -/
theorem of_near (hx : Approx b 0 x.toReal x) (hy : y.isFinite = true)
    (h : |x.toReal - y.toReal| ≤ d) (hc : b + d ≤ c) : Approx c 0 y.toReal y := by
  refine exact hy ?_
  linarith [abs_sub_abs_le_abs_sub y.toReal x.toReal, abs_sub_comm y.toReal x.toReal, hx.size]

theorem size_nonneg (h : Approx b e t x) : 0 ≤ b := (abs_nonneg t).trans h.size

theorem error_nonneg (h : Approx b e t x) : 0 ≤ e := (abs_nonneg _).trans h.error

theorem abs_toReal_le (h : Approx b e t x) : |x.toReal| ≤ b + e := by
  have hsplit : x.toReal = t + (x.toReal - t) := by ring
  rw [hsplit]
  exact (abs_add_le _ _).trans (add_le_add h.size h.error)

theorem mono (h : Approx b e t x) (hb : b ≤ c) (he : e ≤ f) : Approx c f t x :=
  ⟨h.isFinite, h.size.trans hb, h.error.trans he⟩

theorem neg (h : Approx b e t x) : Approx b e (-t) (-x) := by
  refine ⟨Binary64.isFinite_neg.trans h.isFinite, by rw [abs_neg]; exact h.size, ?_⟩
  rw [Binary64.toReal_neg h.isFinite, neg_sub_neg, abs_sub_comm]
  exact h.error

/-- Numbers of moderate size stay in the format. -/
theorem within (h : Approx b e t x) (hb : b + e ≤ 2 ^ 64) : Within 64 x :=
  Binary64.within_of_abs_toReal_le h.isFinite (h.abs_toReal_le.trans hb)

/-- The error of a sum whose size is known. -/
theorem add_of (hx : Approx b e s x) (hy : Approx c f t y) (hd : |s + t| ≤ d)
    (h : b + e ≤ 2 ^ 64 ∧ c + f ≤ 2 ^ 64 ∧ e + f + (d + (e + f)) / 2 ^ 53 ≤ g) :
    Approx d g (s + t) (x + y) := by
  obtain ⟨hb, hc, hg⟩ := h
  have hfin : (x + y).isFinite = true :=
    ((hx.within hb).add (hy.within hc) (e := 65) (by decide)).isFinite (by decide)
  have hexact : |x.toReal + y.toReal - (s + t)| ≤ e + f := by
    rw [add_sub_add_comm]
    exact (abs_add_le _ _).trans (add_le_add hx.error hy.error)
  have hsum : |x.toReal + y.toReal| ≤ d + (e + f) := by
    linarith [abs_sub_abs_le_abs_sub (x.toReal + y.toReal) (s + t)]
  have hround : |(x + y).toReal - (x.toReal + y.toReal)| ≤ (d + (e + f)) / 2 ^ 53 :=
    (Binary64.toReal_add_sub_le hfin).trans (by gcongr)
  refine ⟨hfin, hd, ?_⟩
  linarith [abs_sub_le (x + y).toReal (x.toReal + y.toReal) (s + t)]

theorem add (hx : Approx b e s x) (hy : Approx c f t y)
    (h : b + c ≤ d ∧ d + (e + f) ≤ 2 ^ 64 ∧ e + f + (d + (e + f)) / 2 ^ 53 ≤ g) :
    Approx d g (s + t) (x + y) := by
  obtain ⟨hd, hlimit, hg⟩ := h
  have := hx.size_nonneg
  have := hy.size_nonneg
  have := hx.error_nonneg
  have := hy.error_nonneg
  refine hx.add_of hy ?_ ⟨by linarith, by linarith, hg⟩
  exact ((abs_add_le s t).trans (add_le_add hx.size hy.size)).trans hd

theorem sub_of (hx : Approx b e s x) (hy : Approx c f t y) (hd : |s - t| ≤ d)
    (h : b + e ≤ 2 ^ 64 ∧ c + f ≤ 2 ^ 64 ∧ e + f + (d + (e + f)) / 2 ^ 53 ≤ g) :
    Approx d g (s - t) (x - y) := by
  rw [sub_eq_add_neg] at hd ⊢
  exact hx.add_of hy.neg hd h

theorem sub (hx : Approx b e s x) (hy : Approx c f t y)
    (h : b + c ≤ d ∧ d + (e + f) ≤ 2 ^ 64 ∧ e + f + (d + (e + f)) / 2 ^ 53 ≤ g) :
    Approx d g (s - t) (x - y) :=
  sub_eq_add_neg s t ▸ hx.add hy.neg h

/-- The error of a product. -/
theorem mul (hx : Approx b e s x) (hy : Approx c f t y)
    (h : b * c ≤ d ∧ b + e ≤ 2 ^ 64 ∧ c + f ≤ 2 ^ 64 ∧
      e * (c + f) + b * f + (d + (e * (c + f) + b * f)) / 2 ^ 53 + 1 / 2 ^ 100 ≤ g) :
    Approx d g (s * t) (x * y) := by
  obtain ⟨hd, hb, hc, hg⟩ := h
  have hfin : (x * y).isFinite = true :=
    ((hx.within hb).mul (hy.within hc) (e := 128) (by decide)).isFinite (by decide)
  have hst : |s * t| ≤ d := by
    rw [abs_mul]
    exact (mul_le_mul hx.size hy.size (abs_nonneg t) hx.size_nonneg).trans hd
  have hexact : |x.toReal * y.toReal - s * t| ≤ e * (c + f) + b * f := by
    have hsplit : x.toReal * y.toReal - s * t =
        (x.toReal - s) * y.toReal + s * (y.toReal - t) := by ring
    rw [hsplit]
    refine (abs_add_le _ _).trans (add_le_add ?_ ?_)
    · rw [abs_mul]
      exact mul_le_mul hx.error hy.abs_toReal_le (abs_nonneg _) hx.error_nonneg
    · rw [abs_mul]
      exact mul_le_mul hx.size hy.error (abs_nonneg _) hx.size_nonneg
  generalize e * (c + f) + b * f = h at hexact hg
  have hprod : |x.toReal * y.toReal| / 2 ^ 53 ≤ (d + h) / 2 ^ 53 := by
    gcongr
    linarith [abs_sub_abs_le_abs_sub (x.toReal * y.toReal) (s * t)]
  have hround : |(x * y).toReal - x.toReal * y.toReal| ≤ (d + h) / 2 ^ 53 + 1 / 2 ^ 100 := by
    have hnonneg : 0 ≤ |x.toReal * y.toReal| / 2 ^ 53 := by positivity
    refine (Binary64.toReal_mul_sub_le hfin).trans (max_le ?_ ?_)
    · linarith [unit_le, Binary64.unit_pos]
    · linarith [show (0 : ℝ) ≤ 1 / 2 ^ 100 by positivity]
  refine ⟨hfin, hst, ?_⟩
  linarith [abs_sub_le (x * y).toReal (x.toReal * y.toReal) (s * t)]

/-- **What a sum has lost**, as it is computed. Its error goes by the second summand alone and by
what has been lost, not by the size of the first summand. -/
theorem rest (hx : Approx b 0 s x) (hy : Approx c 0 t y) (hd : |s + t - (x + y).toReal| ≤ d)
    (h : b + c + d ≤ 2 ^ 60 ∧ (c + d) / 2 ^ 53 + (d + (c + d) / 2 ^ 53) / 2 ^ 53 ≤ g) :
    Approx d g (s + t - (x + y).toReal) (x - (x + y) + y) := by
  obtain ⟨hlimit, hg⟩ := h
  have hb := hx.size_nonneg
  have hc := hy.size_nonneg
  have hd0 := (abs_nonneg _).trans hd
  have hsum : Approx (b + c + d) 0 (x + y).toReal (x + y) := by
    have hfin := (hx.add hy (d := b + c) (g := 2 ^ 10) ⟨le_rfl, by linarith, by linarith⟩).isFinite
    refine exact hfin ?_
    linarith [abs_sub_abs_le_abs_sub (x + y).toReal (s + t), abs_sub_comm (x + y).toReal (s + t),
      abs_add_le s t, hx.size, hy.size]
  have hback : Approx (c + d) ((c + d) / 2 ^ 53) (s - (x + y).toReal) (x - (x + y)) := by
    refine hx.sub_of hsum ?_ ⟨by linarith, by linarith, by linarith⟩
    have hshift : s - (x + y).toReal = s + t - (x + y).toReal - t := by ring
    rw [hshift]
    linarith [abs_sub (s + t - (x + y).toReal) t, hy.size]
  have hsplit : s + t - (x + y).toReal = s - (x + y).toReal + t := by ring
  rw [hsplit] at hd ⊢
  refine hback.add_of hy hd ⟨?_, by linarith, by linarith⟩
  linarith

/-- What it has lost at most is the last digit of the sum. -/
theorem rest_of_sizes (hx : Approx b 0 s x) (hy : Approx c 0 t y)
    (h : (b + c) / 2 ^ 53 ≤ d ∧ b + c + d ≤ 2 ^ 60 ∧
      (c + d) / 2 ^ 53 + (d + (c + d) / 2 ^ 53) / 2 ^ 53 ≤ g) :
    Approx d g (s + t - (x + y).toReal) (x - (x + y) + y) := by
  obtain ⟨hd, hlimit, hg⟩ := h
  have hb := hx.size_nonneg
  have hc := hy.size_nonneg
  have hsum := hx.add hy (d := b + c) (g := d) ⟨le_rfl, by linarith, by linarith⟩
  exact hx.rest hy ((abs_sub_comm _ _).trans_le hsum.error) ⟨hlimit, hg⟩

end Approx

/-! ### Values as fractions -/

namespace Binary64

/-- The value of a finite number, as a fraction. -/
def toRat (x : Binary64) : ℚ := (x.place.getD 0 : ℤ) / unitsPerOne

theorem cast_toRat (hx : x.isFinite = true) : (x.toRat : ℝ) = x.toReal := by
  obtain ⟨a, ha, -⟩ := isFinite_iff_place.mp hx
  rw [toReal_of_place ha hx, toRat, ha, Option.getD_some, unit]
  push_cast
  ring

theorem approx_toRat {b : ℚ} {c : ℝ} (hx : x.isFinite = true ∧ |x.toRat| ≤ b) (hc : (b : ℝ) = c) :
    Approx c 0 x.toRat x := by
  have hsize : |x.toReal| ≤ c := by
    rw [← hc, ← cast_toRat hx.1]
    exact_mod_cast hx.2
  exact cast_toRat hx.1 ▸ Approx.exact hx.1 hsize

theorem approx_toReal {b : ℚ} {c : ℝ} (hx : x.isFinite = true ∧ |x.toRat| ≤ b) (hc : (b : ℝ) = c) :
    Approx c 0 x.toReal x := by
  rw [← cast_toRat hx.1]
  exact approx_toRat hx hc

/-! ### Whole numbers -/

theorem abs_cast_le {k : ℤ} {n : ℕ} (hk : k.natAbs ≤ n) (hc : (n : ℝ) = c) : |(k : ℝ)| ≤ c := by
  rw [← Int.cast_abs, ← Nat.cast_natAbs, ← hc]
  exact_mod_cast hk

theorem approx_ofInt {k : ℤ} {n : ℕ} (hk : k.natAbs ≤ n) (hn : n ≤ 2 ^ 53) (hc : (n : ℝ) = c) :
    Approx c 0 k (ofInt k) := by
  have hvalue := toReal_ofInt (hk.trans hn)
  rw [← hvalue]
  refine .exact (Within.isFinite (e := 53) (Within.ofInt (hk.trans hn)) (by decide)) ?_
  rw [hvalue]
  exact abs_cast_le hk hc

end Binary64

/-! ### The leading digits -/

namespace Binary64

/-- The last place of a number is the `2 ^ 52`th part of it at most, or a unit. -/
theorem two_pow_spare_le_add (u : ℕ) : (2 : ℝ) ^ Magnitude.spare u ≤ u / 2 ^ 52 + 1 := by
  rcases Nat.eq_zero_or_pos (Magnitude.spare u) with hs | hs
  · rw [hs, pow_zero, le_add_iff_nonneg_left]
    positivity
  · have hle : ((2 ^ (52 + Magnitude.spare u) : ℕ) : ℝ) ≤ u :=
      Nat.cast_le.mpr (Magnitude.two_pow_spare_le hs.ne')
    rw [Nat.cast_pow, Nat.cast_ofNat, pow_add] at hle
    have hdiv : (2 : ℝ) ^ Magnitude.spare u ≤ u / 2 ^ 52 := by
      rw [le_div_iff₀ (by positivity)]
      linarith
    linarith

/-- The leading digits of a number make a number that is not larger. -/
theorem leading_eq_fin (n : Bool) (m : Magnitude) (k : ℕ) :
    ∃ v : Magnitude, (fin n m).leading k = fin n v ∧ v.units ≤ m.units ∧
      m.units < v.units + 2 ^ (Magnitude.spare m.units + k) := by
  have hd := Nat.two_pow_pos (Magnitude.spare m.units + k)
  have hle := Nat.div_mul_le_self m.units (2 ^ (Magnitude.spare m.units + k))
  have hshort : Short (m.units / 2 ^ (Magnitude.spare m.units + k) *
      2 ^ (Magnitude.spare m.units + k)) := by
    refine ⟨_, _, ?_, rfl⟩
    have hlt := Magnitude.lt_two_pow_spare m.units
    rw [Nat.pow_add] at hlt
    refine Nat.le_of_lt (Nat.lt_of_le_of_lt (Nat.div_le_div_left
      (Nat.pow_le_pow_right Nat.two_pos (Nat.le_add_right _ k)) (Nat.two_pow_pos _)) ?_)
    exact (Nat.div_lt_iff_lt_mul (Nat.two_pow_pos _)).mpr hlt
  have hround := roundShort_of_short hshort Nat.one_pos
  rw [Nat.mul_one] at hround
  refine ⟨⟨_, hshort, hle.trans_lt m.small⟩, round_of_lt hround, hle, ?_⟩
  have hmod := Nat.mod_lt m.units hd
  have hdiv := Nat.div_add_mod' m.units (2 ^ (Magnitude.spare m.units + k))
  show m.units < m.units / _ * _ + _
  omega

theorem isFinite_leading (hx : x.isFinite = true) (k : ℕ) : (x.leading k).isFinite = true := by
  obtain ⟨n, m, rfl⟩ := exists_fin hx
  obtain ⟨v, hv, -⟩ := leading_eq_fin n m k
  rw [hv]
  rfl

/-- **The digits that are cut off.** -/
theorem toReal_sub_leading_le (hx : x.isFinite = true) (k : ℕ) :
    |x.toReal - (x.leading k).toReal| ≤ 2 ^ k * (|x.toReal| / 2 ^ 52 + unit) := by
  obtain ⟨n, m, rfl⟩ := exists_fin hx
  obtain ⟨v, hv, hle, hlt⟩ := leading_eq_fin n m k
  have hvalue : ∀ w : Magnitude, (fin n w).toReal = (if n then -1 else 1) * (w.units * unit) := by
    intro w
    rw [toReal_of_place (place_fin n w) rfl]
    cases n <;> simp [signed]
  have hsign : |(if n then -1 else 1 : ℝ)| = 1 := by cases n <;> simp
  have hunit := unit_pos
  have hcut : (m.units : ℝ) - v.units ≤ 2 ^ k * (m.units / 2 ^ 52 + 1) := by
    have hspare := two_pow_spare_le_add m.units
    have hcast : (m.units : ℝ) < v.units + 2 ^ (Magnitude.spare m.units + k) := by
      exact_mod_cast hlt
    rw [pow_add] at hcast
    have hmul := mul_le_mul_of_nonneg_right hspare (pow_nonneg (zero_le_two (α := ℝ)) k)
    linarith
  have hnonneg : (0 : ℝ) ≤ m.units - v.units := sub_nonneg.mpr (Nat.cast_le.mpr hle)
  have habs : ∀ w : ℝ, 0 ≤ w → |(if n then -1 else 1) * (w * unit)| = w * unit := by
    intro w hw
    rw [abs_mul, hsign, abs_of_nonneg (by positivity)]
    ring
  rw [hv, hvalue, hvalue, ← mul_sub, ← sub_mul, habs _ hnonneg, habs _ (Nat.cast_nonneg _)]
  calc ((m.units : ℝ) - v.units) * unit ≤ 2 ^ k * (m.units / 2 ^ 52 + 1) * unit := by gcongr
    _ = 2 ^ k * (m.units * unit / 2 ^ 52 + unit) := by ring

end Binary64

/-! ### Sums that are rounded once -/

/-- The number is the sum of two, whose exact sum is at most `e` away from `t`. -/
def SumNear (e t : ℝ) (z : Binary64) : Prop :=
  ∃ x y : Binary64, z = x + y ∧ x.isFinite = true ∧ y.isFinite = true ∧
    |x.toReal + y.toReal - t| ≤ e

namespace SumNear

/-- Sums are in order if what they are near to is far enough apart. -/
theorem le (hx : SumNear e s x) (hy : SumNear f t y) (h : s + e ≤ t - f) : x ≤ y := by
  obtain ⟨x₁, x₂, rfl, hx₁, hx₂, hx⟩ := hx
  obtain ⟨y₁, y₂, rfl, hy₁, hy₂, hy⟩ := hy
  obtain ⟨a, ha, hxsum⟩ := Binary64.exists_place_add hx₁ hx₂
  obtain ⟨b, hb, hysum⟩ := Binary64.exists_place_add hy₁ hy₂
  rw [hxsum] at hx
  rw [hysum] at hy
  have hle : (a : ℝ) * unit ≤ b * unit := by
    linarith [(abs_le.mp hx).2, (abs_le.mp hy).1]
  have hab : a ≤ b := Int.cast_le.mp (le_of_mul_le_mul_right hle Binary64.unit_pos)
  exact Binary64.le_iff_place.mpr
    ⟨_, _, ha, hb, Binary64.roundPlace_mono Nat.one_pos Nat.one_pos (by simpa using hab)⟩

theorem le_of_toReal (hx : SumNear e s x) (hy : y.isFinite = true) (h : s + e ≤ y.toReal) :
    x ≤ y := by
  obtain ⟨x₁, x₂, rfl, hx₁, hx₂, hx⟩ := hx
  exact Binary64.add_le_of_toReal_le hx₁ hx₂ hy (by linarith [(abs_le.mp hx).2])

theorem ne_nan (hx : SumNear e s x) : x ≠ Binary64.nan := by
  obtain ⟨x₁, x₂, rfl, hx₁, hx₂, -⟩ := hx
  obtain ⟨a, ha, -⟩ := Binary64.exists_place_add hx₁ hx₂
  rintro h
  rw [h] at ha
  cases ha

end SumNear

end FriBound
