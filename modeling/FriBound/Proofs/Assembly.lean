import FriBound.Proofs.Approximation
import FriBound.Proofs.ElementaryLaws
import FriBound.Proofs.Log2Size
import FriBound.Proofs.Products

/-!
# Putting powers together

The power of two and the general power share their last step: a table entry between one and two is
multiplied by `1 + t` for a small `t` and moved to its place. The result is as large as the entry
says, between the powers of two on either side of it, and for the second half of the table, whose
entries are not close to one, not below the entry's own power of two (`RoughPower`).

As long as the result has a leading one, this is a matter of a single sum. Otherwise the sum is
moved to the grid of the numbers above one and back (`moved`), which rounds it once more, to the
coarser grid of the numbers without a leading one. A power of two that the grid holds is not
crossed by that, and what is below half of a step of the grid comes back as zero.

The sign is a factor of every intermediate number and enters nothing else. With the other sign each
step gives the opposite number (`Opposite`), so a bound for one sign is enough.

## Main definitions

* `Binary64.moved` — a small number on the grid of the numbers above one
* `Binary64.SmallPart` — a number and a small part of it, which are to be added
* `Binary64.RoughPower` — a number between the powers of two that enclose `2 ^ (k / 128)`
* `Binary64.Opposite` — numbers of opposite sign, zeros included

## Main results

* `Binary64.moved_bounds`, `Binary64.moved_eq_zero` — what comes back from the grid
* `Binary64.SmallPart.settle_bounds` — the division by `2 ^ 1022` keeps a sum between powers of two
* `Binary64.assemble_bounds`, `Binary64.assemble_opposite` — the product, and its opposite
-/

namespace FriBound

namespace Binary64

variable {x y v s d t : Binary64} {n i : ℤ}

/-! ### Scaling -/

theorem scale_le_scale (hx : x.isFinite = true) (hy : y.isFinite = true) (h : x ≤ y) (n : ℤ) :
    x.scale n ≤ y.scale n := by
  obtain ⟨a, b, ha, hb, hab⟩ := le_iff_place.mp h
  refine le_iff_place.mpr ⟨_, _, place_scale hx ha n, place_scale hy hb n, ?_⟩
  refine roundPlace_mono (Nat.two_pow_pos _) (Nat.two_pow_pos _) ?_
  exact Int.mul_le_mul_of_nonneg_right
    (Int.mul_le_mul_of_nonneg_right hab (Int.natCast_nonneg _)) (Int.natCast_nonneg _)

/-- A power of two is scaled to a power of two, or to what stands for one beyond the format. -/
theorem scale_twoPow (hi : -1074 ≤ i) (hi' : i ≤ 1023) (n : ℤ) :
    (twoPow i).scale n ≤ twoPow (i + n) ∧ twoPow (i + n) ≤ (twoPow i).scale n := by
  have hscaled := place_scale (isFinite_twoPow hi hi') (place_twoPow hi hi') n
  have hpower : (twoPow (i + n)).place = some (roundPlace
      (unitsPerOne * (2 ^ (i + n).toNat : ℕ)) (2 ^ (-(i + n)).toNat)) :=
    place_scale isFinite_one place_one (i + n)
  have hexact : ((2 ^ (i + places).toNat : ℕ) : ℤ) * (2 ^ n.toNat : ℕ) *
      (2 ^ (-(i + n)).toNat : ℕ) =
        unitsPerOne * (2 ^ (i + n).toNat : ℕ) * (2 ^ (-n).toNat : ℕ) := by
    rw [unitsPerOne_eq]
    push_cast
    rw [← pow_add, ← pow_add, ← pow_add, ← pow_add]
    congr 1
    rw [places]
    omega
  have hpos := Nat.two_pow_pos (-n).toNat
  have hpos' := Nat.two_pow_pos (-(i + n)).toNat
  exact ⟨le_iff_place.mpr ⟨_, _, hscaled, hpower, roundPlace_mono hpos hpos' hexact.le⟩,
    le_iff_place.mpr ⟨_, _, hpower, hscaled, roundPlace_mono hpos' hpos hexact.ge⟩⟩

theorem twoPow_le_scale (hi : -1074 ≤ i) (hi' : i ≤ 1023) (hx : x.isFinite = true)
    (h : twoPow i ≤ x) (n : ℤ) : twoPow (i + n) ≤ x.scale n :=
  le_trans (scale_twoPow hi hi' n).2 (scale_le_scale (isFinite_twoPow hi hi') hx h n)

theorem scale_le_twoPow (hi : -1074 ≤ i) (hi' : i ≤ 1023) (hx : x.isFinite = true)
    (h : x ≤ twoPow i) (n : ℤ) : x.scale n ≤ twoPow (i + n) :=
  le_trans (scale_le_scale hx (isFinite_twoPow hi hi') h n) (scale_twoPow hi hi' n).1

/-! ### Digits with a point -/

theorem toReal_of_digits {q k : ℕ} (hx : x.isFinite = true) (hk : k ≤ places)
    (h : x.place = some (q * (2 ^ (places - k) : ℕ))) : x.toReal = q / 2 ^ k := by
  have hone := unitsPerOne_mul_unit
  rw [unitsPerOne_eq_mul hk] at hone
  rw [toReal_of_place h hx, eq_div_iff (by positivity)]
  push_cast at hone ⊢
  linear_combination (q : ℝ) * hone

/-- Digits with a point are what they say. -/
theorem approx_digits {q k : ℕ} {b : ℝ} (hq : q < 2 ^ 53) (hk : k ≤ places)
    (hb : (q : ℝ) / 2 ^ k ≤ b) : Approx b 0 (q / 2 ^ k) ((ofInt q).scale (-k)) := by
  obtain ⟨hfin, hplace⟩ := place_scale_digits (n := q) (by omega) hk
  rw [← toReal_of_digits hfin hk hplace]
  refine .exact hfin ?_
  rwa [toReal_of_digits hfin hk hplace, abs_of_nonneg (by positivity)]

/-! ### Next to one -/

theorem toReal_one : (ofInt 1).toReal = 1 := by rw [toReal_ofInt (by decide), Int.cast_one]

theorem approx_one : Approx 1 0 1 (ofInt 1) :=
  toReal_one ▸ Approx.exact isFinite_one (by rw [toReal_one, abs_one])

theorem le_sub_of_toReal_le (hx : x.isFinite = true) (hy : y.isFinite = true)
    (hv : v.isFinite = true) (h : v.toReal ≤ x.toReal - y.toReal) : v ≤ x - y := by
  refine le_add_of_toReal_le (y := -y) hx (isFinite_neg.trans hy) hv ?_
  rwa [toReal_neg hy, ← sub_eq_add_neg]

theorem sub_le_of_toReal_le (hx : x.isFinite = true) (hy : y.isFinite = true)
    (hv : v.isFinite = true) (h : x.toReal - y.toReal ≤ v.toReal) : x - y ≤ v := by
  refine add_le_of_toReal_le (y := -y) hx (isFinite_neg.trans hy) hv ?_
  rwa [toReal_neg hy, ← sub_eq_add_neg]

/-- Where the sum has few enough digits, it is exact. -/
theorem place_add_of_exact {a b : ℤ} (hx : x.isFinite = true) (hy : y.isFinite = true)
    (ha : x.place = some a) (hb : y.place = some b) (h : Short (a + b).natAbs)
    (hlimit : (a + b).natAbs ≤ unitLimit) : (x + y).place = some (a + b) := by
  have hround := roundPlace_of_short h hlimit Nat.one_pos
  rw [Nat.cast_one, Int.mul_one] at hround
  rw [place_add hx hy ha hb, hround]

/-- The sum of one and a power of two down to the last digit is a number. -/
theorem one_add_twoPow {j : ℕ} (hj : j ≤ 52) : (ofInt 1 + twoPow (-j)).isFinite = true ∧
    (ofInt 1 + twoPow (-j)).toReal = 1 + (twoPow (-j)).toReal := by
  have hplace : (twoPow (-j)).place = some ((2 ^ (places - j) : ℕ) : ℤ) := by
    rw [place_twoPow (by omega) (by omega)]
    congr 4
    rw [places]
    omega
  have hfin : (twoPow (-j)).isFinite = true := isFinite_twoPow (by omega) (by omega)
  have hparts : unitsPerOne = 2 ^ j * 2 ^ (places - j) := unitsPerOne_eq_mul (by rw [places]; omega)
  have hsum : unitsPerOne + 2 ^ (places - j) = (2 ^ j + 1) * 2 ^ (places - j) := by
    rw [hparts]
    ring
  have hdigits : 2 ^ j + 1 ≤ 2 ^ 53 := by
    have hpow : 2 ^ j ≤ 2 ^ 52 := Nat.pow_le_pow_right Nat.two_pos hj
    omega
  have hlimit : unitsPerOne + 2 ^ (places - j) < unitLimit := by
    have hle : 2 ^ (places - j) ≤ unitsPerOne := by
      rw [unitsPerOne_eq]
      exact Nat.pow_le_pow_right Nat.two_pos (Nat.sub_le _ _)
    have htwo := two_pow_lt_unitLimit (e := 1) (by decide)
    rw [two_pow_add_places] at htwo
    omega
  have hnat : ((unitsPerOne : ℤ) + (2 ^ (places - j) : ℕ)).natAbs =
      unitsPerOne + 2 ^ (places - j) := by omega
  have hexact : (ofInt 1 + twoPow (-j)).place = some (unitsPerOne + (2 ^ (places - j) : ℕ)) :=
    place_add_of_exact isFinite_one hfin place_one hplace ⟨_, _, hdigits, hnat.trans hsum⟩
      (hnat.trans_le hlimit.le)
  have hfin' : (ofInt 1 + twoPow (-j)).isFinite = true :=
    isFinite_iff_place.mpr ⟨_, hexact, hnat.trans_lt hlimit⟩
  refine ⟨hfin', ?_⟩
  rw [toReal_of_place hexact hfin', toReal_of_place hplace hfin, ← unitsPerOne_mul_unit]
  push_cast
  ring

/-- From one on, numbers are multiples of the `2 ^ 52`th part of one. -/
theorem dvd_place_of_one_le {a : ℤ} (hx : ofInt 1 ≤ x) (ha : x.place = some a) :
    ((2 ^ (places - 52) : ℕ) : ℤ) ∣ a := by
  have hle := (le_iff_of_place place_one ha).mp hx
  have hspare : places - 52 ≤ Magnitude.spare a.natAbs := by
    have hpos := unitsPerOne_pos
    have hlog : places ≤ a.natAbs.log2 := by
      rw [Nat.le_log2 (by omega), ← unitsPerOne_eq]
      omega
    rw [Magnitude.spare]
    omega
  rw [Int.natCast_dvd]
  exact Nat.dvd_trans (Nat.pow_dvd_pow 2 hspare) (Magnitude.two_pow_spare_dvd (short_place ha))

theorem eq_one_of_place (h : x.place = some (unitsPerOne : ℤ)) (hx : x.isFinite = true) :
    x = ofInt 1 := by
  have hpos : (zero false).lt x = true :=
    lt_iff_place.mpr ⟨_, _, place_zero _, h, Int.ofNat_lt.mpr unitsPerOne_pos⟩
  obtain ⟨m, rfl, -⟩ := exists_fin_of_pos hx hpos
  obtain ⟨o, ho, hunits⟩ := exists_one
  rw [place_fin, Option.some.injEq] at h
  rw [ho, Magnitude.ext ((Int.ofNat_inj.mp h).trans hunits.symm)]

/-- What is below the half of the last digit is lost next to one. -/
theorem one_add_of_le (hx : x.isFinite = true) (hlow : 0 ≤ x.toReal)
    (hhigh : x.toReal ≤ 9999 / 10000 / 2 ^ 53) : ofInt 1 + x = ofInt 1 := by
  have hX : Within 0 x := within_of_abs_toReal_le hx (by
    rw [abs_of_nonneg hlow]
    linarith)
  have hI : Within 0 (ofInt 1) := Within.ofInt (by decide)
  have hfin := (hI.add hX (e := 1) (by decide)).isFinite (by decide)
  have hone : ofInt 1 ≤ ofInt 1 + x :=
    le_add_of_toReal_le isFinite_one hx isFinite_one (by linarith)
  obtain ⟨a, ha, hle⟩ := exists_place_of_le hone place_one
  have hparts : unitsPerOne = 2 ^ 52 * 2 ^ (places - 52) := unitsPerOne_eq_mul (by decide)
  have hunit := unitsPerOne_mul_unit
  rw [hparts] at hunit
  have hlt : (a : ℝ) < unitsPerOne + (2 ^ (places - 52) : ℕ) := by
    have hround := (abs_le.mp (toReal_add_sub_le hfin)).2
    rw [toReal_one, abs_of_pos (by linarith)] at hround
    have hvalue : (ofInt 1 + x).toReal < 1 + 1 / 2 ^ 52 := by linarith
    rw [toReal_of_place ha hfin] at hvalue
    refine lt_of_mul_lt_mul_right (hvalue.trans_eq ?_) unit_pos.le
    rw [hparts]
    push_cast at hunit ⊢
    linear_combination -(1 + 1 / 2 ^ 52 : ℝ) * hunit
  have hlt' : a < unitsPerOne + (2 ^ (places - 52) : ℕ) := by exact_mod_cast hlt
  have hdvd : ((2 ^ (places - 52) : ℕ) : ℤ) ∣ a - unitsPerOne :=
    Int.dvd_sub (dvd_place_of_one_le hone ha)
      (Int.natCast_dvd_natCast.mpr ⟨2 ^ 52, by rw [hparts, Nat.mul_comm]⟩)
  have heq : a - unitsPerOne = 0 :=
    Int.eq_zero_of_dvd_of_nonneg_of_lt (by omega) (by omega) hdvd
  rw [Int.sub_eq_zero.mp heq] at ha
  exact eq_one_of_place ha hfin

/-! ### To the grid above one and back -/

/-- The number `x + r`, for a small `r`, on the grid of the numbers above one. -/
def moved (x r : Binary64) : Binary64 :=
  ofInt 1 + x + (ofInt 1 - (ofInt 1 + x) + x + r) - ofInt 1

/-- The steps on the way stay in the format. -/
theorem within_moved {r : Binary64} (hx : Within 0 x) (hr : Within 4 r) :
    Within 1 (ofInt 1 + x) ∧ Within 3 (ofInt 1 - (ofInt 1 + x) + x) ∧
      Within 5 (ofInt 1 - (ofInt 1 + x) + x + r) ∧
      Within 6 (ofInt 1 + x + (ofInt 1 - (ofInt 1 + x) + x + r)) := by
  have hone : Within 0 (ofInt 1) := Within.ofInt (by decide)
  have hhigh : Within 1 (ofInt 1 + x) := hone.add hx (by decide)
  have hback : Within 3 (ofInt 1 - (ofInt 1 + x) + x) :=
    (hone.sub hhigh (e := 2) (by decide)).add hx (by decide)
  have hlow : Within 5 (ofInt 1 - (ofInt 1 + x) + x + r) := hback.add hr (by decide)
  exact ⟨hhigh, hback, hlow, hhigh.add hlow (by decide)⟩

/-- What one loses of `x` is added again, so that the two parts of the sum are off by little more
than `r`. -/
theorem moved_parts {r : Binary64} (hx : x.isFinite = true) (hlow : 1 / 2 ^ 55 ≤ x.toReal)
    (hhigh : x.toReal ≤ 1) (hr : Within 4 r) (hsmall : |r.toReal| ≤ x.toReal / 2 ^ 49) :
    |(ofInt 1 + x).toReal + (ofInt 1 - (ofInt 1 + x) + x + r).toReal - (1 + x.toReal)| ≤
      x.toReal / 2 ^ 40 := by
  have hpos : 0 < x.toReal := by linarith [show (0 : ℝ) < 1 / 2 ^ 55 by positivity]
  have hI : Within 0 (ofInt 1) := Within.ofInt (by decide)
  have hX : Within 0 x := within_of_abs_toReal_le hx (by rw [abs_of_pos hpos]; linarith)
  obtain ⟨hH, hC, hL, -⟩ := within_moved hX hr
  have hB : Within 2 (ofInt 1 - (ofInt 1 + x)) := hI.sub hH (by decide)
  have hsum := toReal_add_sub_le (hH.isFinite (by decide))
  have hback := toReal_sub_sub_le (hB.isFinite (by decide))
  have hnear := toReal_add_sub_le (hC.isFinite (by decide))
  have hlower := toReal_add_sub_le (hL.isFinite (by decide))
  rw [toReal_one] at hsum hback
  rw [abs_of_pos (by linarith : 0 < 1 + x.toReal)] at hsum
  obtain ⟨hh, hh'⟩ := abs_le.mp hsum
  obtain ⟨hr₀, hr₁⟩ := abs_le.mp hsmall
  have hb₀ : |1 - (ofInt 1 + x).toReal| ≤ x.toReal + 1 / 2 ^ 52 :=
    abs_le.mpr ⟨by linarith, by linarith⟩
  obtain ⟨hb, hb'⟩ := abs_le.mp hback
  have hc₀ : |(ofInt 1 - (ofInt 1 + x)).toReal + x.toReal| ≤ 1 / 2 ^ 51 :=
    abs_le.mpr ⟨by linarith, by linarith⟩
  obtain ⟨hc, hc'⟩ := abs_le.mp hnear
  obtain ⟨hc₁, hc₁'⟩ := abs_le.mp hc₀
  have hl₀ : |(ofInt 1 - (ofInt 1 + x) + x).toReal + r.toReal| ≤ 1 / 2 ^ 50 + x.toReal / 2 ^ 49 :=
    abs_le.mpr ⟨by linarith, by linarith⟩
  obtain ⟨hl, hl'⟩ := abs_le.mp hlower
  exact abs_le.mpr ⟨by linarith, by linarith⟩

/-- The result, between powers of two. -/
theorem moved_bounds {r : Binary64} (hx : x.isFinite = true) (hlow : 1 / 2 ^ 55 ≤ x.toReal)
    (hhigh : x.toReal ≤ 1) (hr : Within 4 r) (hsmall : |r.toReal| ≤ x.toReal / 2 ^ 49) :
    (moved x r).isFinite = true ∧ zero false ≤ moved x r ∧ moved x r ≤ ofInt 2 ∧
      ∀ j : ℕ, j ≤ 52 →
        ((twoPow (-j)).toReal ≤ x.toReal * (1 - 1 / 2 ^ 40) → twoPow (-j) ≤ moved x r) ∧
        (x.toReal * (1 + 1 / 2 ^ 40) ≤ (twoPow (-j)).toReal → moved x r ≤ twoPow (-j)) := by
  have hpos : 0 < x.toReal := by linarith [show (0 : ℝ) < 1 / 2 ^ 55 by positivity]
  have hX : Within 0 x := within_of_abs_toReal_le hx (by rw [abs_of_pos hpos]; linarith)
  obtain ⟨hH, -, hL, hW⟩ := within_moved hX hr
  have hHfin := hH.isFinite (by decide)
  have hLfin := hL.isFinite (by decide)
  have hWfin := hW.isFinite (by decide)
  obtain ⟨hparts, hparts'⟩ := abs_le.mp (moved_parts hx hlow hhigh hr hsmall)
  refine ⟨(hW.sub (Within.ofInt (e := 0) (by decide)) (e := 7) (by decide)).isFinite (by decide),
    zero_le_sub isFinite_one hWfin ?_, ?_, fun j hj => ⟨fun hj' => ?_, fun hj' => ?_⟩⟩
  · exact le_add_of_toReal_le hHfin hLfin isFinite_one (by rw [toReal_one]; linarith)
  · have htwo : (ofInt 2).toReal = 2 := by rw [toReal_ofInt (by decide), Int.cast_ofNat]
    have hthree : (ofInt 3).toReal = 3 := by rw [toReal_ofInt (by decide), Int.cast_ofNat]
    have hfin : (ofInt 3).isFinite = true :=
      Within.isFinite (e := 2) (Within.ofInt (by decide)) (by decide)
    have hle : ofInt 1 + x + (ofInt 1 - (ofInt 1 + x) + x + r) ≤ ofInt 3 :=
      add_le_of_toReal_le hHfin hLfin hfin (by rw [hthree]; linarith)
    refine sub_le_of_toReal_le hWfin isFinite_one isFinite_two ?_
    linarith [toReal_le_toReal hle hWfin hfin, toReal_one]
  · obtain ⟨hfin, hsum⟩ := one_add_twoPow hj
    have hge : ofInt 1 + twoPow (-j) ≤ ofInt 1 + x + (ofInt 1 - (ofInt 1 + x) + x + r) :=
      le_add_of_toReal_le hHfin hLfin hfin (by rw [hsum]; linarith)
    refine le_sub_of_toReal_le hWfin isFinite_one (isFinite_twoPow (by omega) (by omega)) ?_
    linarith [toReal_le_toReal hge hfin hWfin, toReal_one]
  · obtain ⟨hfin, hsum⟩ := one_add_twoPow hj
    have hle : ofInt 1 + x + (ofInt 1 - (ofInt 1 + x) + x + r) ≤ ofInt 1 + twoPow (-j) :=
      add_le_of_toReal_le hHfin hLfin hfin (by rw [hsum]; linarith)
    refine sub_le_of_toReal_le hWfin isFinite_one (isFinite_twoPow (by omega) (by omega)) ?_
    linarith [toReal_le_toReal hle hWfin hfin, toReal_one]

/-- What is too small for the grid comes back as zero. -/
theorem moved_eq_zero {r : Binary64} (hx : x.isFinite = true) (hlow : 0 ≤ x.toReal)
    (hhigh : x.toReal ≤ 9998 / 10000 / 2 ^ 53) (hr : Within 4 r)
    (hsmall : |r.toReal| ≤ x.toReal / 2 ^ 49) : moved x r = zero false := by
  have hX : Within 0 x := within_of_abs_toReal_le hx (by
    rw [abs_of_nonneg hlow]
    linarith)
  obtain ⟨-, hC, hL, -⟩ := within_moved hX hr
  have hone := one_add_of_le hx hlow (by linarith)
  rw [hone, sub_self isFinite_one] at hC hL
  have hnear := toReal_add_sub_le (hC.isFinite (by decide))
  have hlower := toReal_add_sub_le (hL.isFinite (by decide))
  rw [toReal_zero, zero_add, abs_of_nonneg hlow] at hnear
  obtain ⟨hc, hc'⟩ := abs_le.mp hnear
  obtain ⟨hr₀, hr₁⟩ := abs_le.mp hsmall
  rw [abs_of_nonneg (by linarith : 0 ≤ (zero false + x).toReal + r.toReal)] at hlower
  obtain ⟨hl, hl'⟩ := abs_le.mp hlower
  rw [moved, hone, sub_self isFinite_one,
    one_add_of_le (hL.isFinite (by decide)) (by linarith) (by linarith), sub_self isFinite_one]

/-! ### Putting the product together -/

/-- A number and a small part of it, which are to be added. -/
structure SmallPart (s d : Binary64) : Prop where
  isFinite : s.isFinite = true
  isFinite' : d.isFinite = true
  low : 2 ^ 100 * unit ≤ s.toReal
  small : |d.toReal| ≤ 3 / 1000 * s.toReal

namespace SmallPart

theorem pos (h : SmallPart s d) : 0 < s.toReal := by
  linarith [h.low, unit_pos]

theorem sum_sub_le (h : SmallPart s d) (hfin : (s + d).isFinite = true) :
    |(s + d).toReal - (s.toReal + d.toReal)| ≤ s.toReal / 2 ^ 52 := by
  have hround := toReal_add_sub_le hfin
  have hpos := h.pos
  obtain ⟨hlow, hhigh⟩ := abs_le.mp h.small
  rw [abs_of_pos (by linarith : 0 < s.toReal + d.toReal)] at hround
  linarith

theorem sum_bounds (h : SmallPart s d) (hfin : (s + d).isFinite = true) :
    99 / 100 * s.toReal ≤ (s + d).toReal ∧ (s + d).toReal ≤ 10031 / 10000 * s.toReal := by
  have hpos := h.pos
  obtain ⟨hlow, hhigh⟩ := abs_le.mp h.small
  obtain ⟨hlow', hhigh'⟩ := abs_le.mp (h.sum_sub_le hfin)
  constructor <;> linarith

/-- The steps on the way stay in the format. -/
theorem within_rest (h : SmallPart s d) (hs : s.toReal ≤ 2) : Within 1 s ∧ Within 0 d ∧
    Within 2 (s + d) ∧ Within 3 (s - (s + d)) ∧ Within 4 (s - (s + d) + d) := by
  have hS : Within 1 s := within_of_abs_toReal_le h.isFinite (by rw [abs_of_pos h.pos]; linarith)
  have hD : Within 0 d := within_of_abs_toReal_le h.isFinite' (by linarith [h.small])
  have hY : Within 2 (s + d) := hS.add hD (by decide)
  have hA : Within 3 (s - (s + d)) := hS.sub hY (by decide)
  exact ⟨hS, hD, hY, hA, hA.add hD (by decide)⟩

/-- What the sum lost, as it is computed. -/
theorem abs_rest_le (h : SmallPart s d) (hs : s.toReal ≤ 2) :
    |(s - (s + d) + d).toReal| ≤ s.toReal / 2 ^ 50 := by
  have hpos := h.pos
  obtain ⟨-, -, hY, hA, hR⟩ := h.within_rest hs
  obtain ⟨hd, hd'⟩ := abs_le.mp h.small
  obtain ⟨hy, hy'⟩ := abs_le.mp (h.sum_sub_le (hY.isFinite (by decide)))
  -- The difference is about the size of `d`, and with `d` only the errors remain.
  have hdiff : |s.toReal - (s + d).toReal| ≤ s.toReal / 100 := abs_le.mpr ⟨by linarith, by linarith⟩
  obtain ⟨ha, ha'⟩ := abs_le.mp (toReal_sub_sub_le (hA.isFinite (by decide)))
  have hsum : |(s - (s + d)).toReal + d.toReal| ≤ s.toReal / 2 ^ 51 :=
    abs_le.mpr ⟨by linarith, by linarith⟩
  obtain ⟨hr, hr'⟩ := abs_le.mp (toReal_add_sub_le (hR.isFinite (by decide)))
  obtain ⟨hsum₀, hsum₁⟩ := abs_le.mp hsum
  exact abs_le.mpr ⟨by linarith, by linarith⟩

end SmallPart

theorem place_zero_scale (neg : Bool) (n : ℤ) : ((zero neg).scale n).place = some 0 := by
  rw [place_scale rfl (place_zero neg) n]
  simp [roundPlace]

/-- Zeros are set apart only for their sign. -/
theorem place_settled (x : Binary64) (n : ℤ) :
    (if x.same (zero false) then zero false else x.scale n).place = (x.scale n).place := by
  split
  · rename_i hzero
    rw [← ofInt_zero, same_zero_iff] at hzero
    obtain ⟨s, rfl⟩ := hzero
    rw [place_zero_scale, place_zero]
  · rfl

theorem lt_of_toReal_lt (hx : x.isFinite = true) (hy : y.isFinite = true)
    (h : x.toReal < y.toReal) : x.lt y = true := by
  by_contra hnot
  have hle := toReal_le_toReal (le_of_not_lt (ne_nan_of_isFinite hx) (ne_nan_of_isFinite hy)
    (Bool.eq_false_of_not_eq_true hnot)) hy hx
  linarith

theorem toReal_twoPow_eq (h : -1074 ≤ i) (h' : i ≤ 1023) : (twoPow i).toReal = (2 : ℝ) ^ i := by
  rw [toReal_twoPow h h', Real.rpow_intCast]

/-- The bound below which an exponential is formed next to one. -/
theorem toReal_twoPow_neg_54 : (twoPow (-54)).toReal = 1 / 2 ^ 54 := by
  rw [toReal_twoPow_eq (by decide) (by decide)]
  norm_num

theorem toReal_twoPow_mono (h : -1074 ≤ i) (hin : i ≤ n) (h' : n ≤ 1023) :
    (twoPow i).toReal ≤ (twoPow n).toReal :=
  toReal_le_toReal (twoPow_le_twoPow h hin h') (isFinite_twoPow h (by omega))
    (isFinite_twoPow (by omega) h')

/-- What is known of a sum before it is divided: it is between the powers of two that enclose it, as
long as the grid below one holds them. -/
structure SumBounds (s z : Binary64) : Prop where
  isFinite : z.isFinite = true
  nonneg : zero false ≤ z
  eq_zero : s.toReal ≤ 1993 / 2000 / 2 ^ 53 → z = zero false
  twoPow_le : ∀ i : ℤ, -52 ≤ i → i ≤ 1022 → (twoPow i).toReal ≤ 98 / 100 * s.toReal → twoPow i ≤ z
  le_twoPow : ∀ i : ℤ, -52 ≤ i → i ≤ 1022 →
    s.toReal ≤ 1993 / 2000 * (twoPow i).toReal → z ≤ twoPow i

namespace SmallPart

/-- From one on, this is the sum itself. -/
theorem sumBounds (h : SmallPart s d) (hfin : (s + d).isFinite = true)
    (hone : 1 ≤ (s + d).toReal) : SumBounds s (s + d) := by
  have hpos := h.pos
  obtain ⟨hlow, hhigh⟩ := h.sum_bounds hfin
  refine ⟨hfin, ?_, fun _ => by linarith, fun i hi hi' hge => ?_, fun i hi hi' hle => ?_⟩
  · exact le_of_toReal_le rfl hfin (by rw [toReal_zero]; linarith)
  · exact le_of_toReal_le (isFinite_twoPow (by omega) (by omega)) hfin (by linarith)
  · exact le_of_toReal_le hfin (isFinite_twoPow (by omega) (by omega)) (by linarith)

/-- Below one, the sum is moved to the grid above one and back. -/
theorem sumBounds_moved (h : SmallPart s d) (hfin : (s + d).isFinite = true)
    (hone : (s + d).toReal < 1) : SumBounds s (moved (s + d) (s - (s + d) + d)) := by
  have hpos := h.pos
  obtain ⟨hlow, hhigh⟩ := h.sum_bounds hfin
  obtain ⟨-, -, -, -, hR⟩ := h.within_rest (by linarith)
  have hrest : |(s - (s + d) + d).toReal| ≤ (s + d).toReal / 2 ^ 49 :=
    (h.abs_rest_le (by linarith)).trans (by linarith)
  rcases le_or_gt s.toReal (1993 / 2000 / 2 ^ 53) with htiny | hlarge
  · rw [moved_eq_zero hfin (by linarith) (by linarith) hR hrest]
    refine ⟨rfl, zero_le_zero, fun _ => rfl, fun i hi hi' hge => ?_, fun i _ _ _ =>
      twoPow_nonneg i⟩
    have hleast := toReal_twoPow_mono (by decide) hi (by omega)
    rw [toReal_twoPow_eq (i := -52) (by decide) (by decide)] at hleast
    norm_num at hleast
    linarith
  · obtain ⟨hzfin, hz0, hz2, hz⟩ := moved_bounds hfin (by linarith) hone.le hR hrest
    have hgrid : ∀ i : ℤ, -52 ≤ i → i ≤ 0 →
        ((twoPow i).toReal ≤ 98 / 100 * s.toReal → twoPow i ≤ moved (s + d) (s - (s + d) + d)) ∧
          (s.toReal ≤ 1993 / 2000 * (twoPow i).toReal →
            moved (s + d) (s - (s + d) + d) ≤ twoPow i) := by
      intro i hi hi'
      obtain ⟨j, rfl⟩ : ∃ j : ℕ, i = -j := ⟨i.natAbs, by omega⟩
      obtain ⟨hge, hle⟩ := hz j (by omega)
      exact ⟨fun h => hge (by linarith), fun h => hle (by linarith)⟩
    refine ⟨hzfin, hz0, fun htiny => by linarith, fun i hi hi' hge => ?_, fun i hi hi' hle => ?_⟩
    · rcases le_or_gt i 0 with hneg | hpos'
      · exact (hgrid i hi hneg).1 hge
      · have hstep := toReal_twoPow_mono (i := 0) (by decide) hpos'.le (by omega)
        rw [toReal_twoPow_eq (i := 0) (by decide) (by decide), zpow_zero] at hstep
        linarith
    · rcases le_or_gt i 0 with hneg | hpos'
      · exact (hgrid i hi hneg).2 hle
      · refine le_trans hz2 ?_
        have hmono := toReal_twoPow_mono (i := 1) (by decide) hpos' (by omega)
        rw [toReal_twoPow_eq (i := 1) (by decide) (by decide), zpow_one] at hmono
        refine le_of_toReal_le isFinite_two (isFinite_twoPow (by omega) (by omega)) ?_
        rw [toReal_ofInt (by decide)]
        exact_mod_cast hmono

/-- What is left to do after the sum is the division by `2 ^ 1022`. -/
theorem exists_settle (h : SmallPart s d) (hfin : (s + d).isFinite = true) :
    ∃ z : Binary64, SumBounds s z ∧ (settle false s d).place = (z.scale (-1022)).place := by
  have hpos := h.pos
  obtain ⟨hlow, hhigh⟩ := h.sum_bounds hfin
  have hYabs := toReal_abs hfin
  rw [abs_of_nonneg (by linarith)] at hYabs
  rcases lt_or_ge (s + d).toReal 1 with hone | hone
  · have hlt : (s + d).abs.lt (ofInt 1) = true :=
      lt_of_toReal_lt (isFinite_abs.trans hfin) isFinite_one (by rw [hYabs, toReal_one]; exact hone)
    have hsettle : settle false s d = if (moved (s + d) (s - (s + d) + d)).same (zero false)
        then zero false else (moved (s + d) (s - (s + d) + d)).scale (-1022) := by
      rw [settle]
      simp only [hlt, if_true]
      rfl
    exact ⟨_, h.sumBounds_moved hfin hone, hsettle ▸ place_settled _ _⟩
  · have hnot : (s + d).abs.lt (ofInt 1) = false := by
      refine not_lt_of_le (le_of_toReal_le isFinite_one (isFinite_abs.trans hfin) ?_)
      rw [hYabs, toReal_one]
      exact hone
    have hsettle : settle false s d = (s + d).scale (-1022) := by
      rw [settle]
      simp only [hnot, Bool.false_eq_true, if_false]
    exact ⟨_, h.sumBounds hfin hone, by rw [hsettle]⟩

end SmallPart

theorem le_congr_left (h : x.place = y.place) : x ≤ v ↔ y ≤ v := by
  rw [le_iff_place, le_iff_place, h]

theorem le_congr_right (h : x.place = y.place) : v ≤ x ↔ v ≤ y := by
  rw [le_iff_place, le_iff_place, h]

/-- **The division by `2 ^ 1022`** keeps the sum between powers of two, also where these have no
leading one or are lost. -/
theorem SmallPart.settle_bounds (h : SmallPart s d) (hfin : (s + d).isFinite = true)
    (hi : -1074 ≤ i) (hi' : i ≤ 1022) :
    ((twoPow i).toReal ≤ 98 / 100 * s.toReal → twoPow (i - 1022) ≤ settle false s d) ∧
      (s.toReal ≤ 1993 / 2000 * (twoPow i).toReal → settle false s d ≤ twoPow (i - 1022)) := by
  obtain ⟨z, ⟨hz, hz0, hzero, hge, hle⟩, hplace⟩ := h.exists_settle hfin
  rw [le_congr_left hplace, le_congr_right hplace]
  rcases le_or_gt (-52) i with hgrid | hlost
  · exact ⟨fun h => twoPow_le_scale hi (by omega) hz (hge i hgrid hi' h) _,
      fun h => scale_le_twoPow hi (by omega) hz (hle i hgrid hi' h) _⟩
  · have hscale : ∀ {w : Binary64}, w.isFinite = true → zero false ≤ w →
        zero false ≤ w.scale (-1022) := by
      intro w hw hw0
      obtain ⟨a, ha, ha0⟩ := zero_le_iff_place.mp hw0
      exact zero_le_iff_place.mpr ⟨_, place_scale hw ha _, roundPlace_nonneg _ (by positivity)⟩
    rw [twoPow_of_small (n := i - 1022) (by omega)]
    refine ⟨fun _ => hscale hz hz0, fun hle => ?_⟩
    have hstep := toReal_twoPow_mono hi (show i ≤ -53 by omega) (by decide)
    rw [toReal_twoPow_eq (i := -53) (by decide) (by decide)] at hstep
    rw [hzero (by norm_num at hstep ⊢; linarith)]
    exact le_zero_iff_place.mpr ⟨0, place_zero_scale false _, Int.le_refl 0⟩

theorem Within.scale {e f : ℕ} (hx : Within e x) (he : e < 1024) (h : e + n ≤ f) :
    Within f (x.scale n) := by
  have hfin := hx.isFinite he
  obtain ⟨a, ha, hle⟩ := hx
  refine AtMost.of_place (place_scale hfin ha n) (Nat.two_pow_pos _) (short_two_pow _) ?_
  calc (a * (2 ^ n.toNat : ℕ)).natAbs = a.natAbs * 2 ^ n.toNat := by
        rw [Int.natAbs_mul, Int.natAbs_natCast]
    _ ≤ 2 ^ (e + places) * 2 ^ n.toNat := Nat.mul_le_mul_right _ hle
    _ = 2 ^ (e + places + n.toNat) := (Nat.pow_add ..).symm
    _ ≤ 2 ^ (f + places + (-n).toNat) := Nat.pow_le_pow_right Nat.two_pos (by omega)
    _ = 2 ^ (f + places) * 2 ^ (-n).toNat := Nat.pow_add ..

/-! ### The table -/

/-- The entries of the table are between one and two, the second half of them is not close to one,
and their corrections are small. -/
theorem fractionalPowers_fit : ∀ i : Fin 128,
    ((ofBits (fractionalPowers.get i).1).isFinite = true ∧
      1 ≤ (ofBits (fractionalPowers.get i).1).toRat ∧
      (ofBits (fractionalPowers.get i).1).toRat ≤ 255 / 128 ∧
      (64 ≤ i.val → 5 / 4 ≤ (ofBits (fractionalPowers.get i).1).toRat)) ∧
    (ofBits (fractionalPowers.get i).2).isFinite = true ∧
      |(ofBits (fractionalPowers.get i).2).toRat| ≤ 1 / 2 ^ 40 := by
  decide +kernel

/-- The entry for a whole exponent is exact. -/
theorem fractionalPower_zero : ofBits (fractionalPower 0).1 = ofInt 1 ∧
    ofBits (fractionalPower 0).2 = zero false := by
  decide +kernel

/-- An entry as a real number. -/
theorem entry_spec (k : ℤ) : (ofBits (fractionalPower k).1).isFinite = true ∧
    1 ≤ (ofBits (fractionalPower k).1).toReal ∧ (ofBits (fractionalPower k).1).toReal ≤ 255 / 128 ∧
      (64 ≤ k % 128 → 5 / 4 ≤ (ofBits (fractionalPower k).1).toReal) := by
  obtain ⟨⟨hfin, hlow, hhigh, hhalf⟩, -⟩ := fractionalPowers_fit (entry (k % 128).toNat)
  have hentry : (entry (k % 128).toNat).val = (k % 128).toNat := Nat.mod_eq_of_lt (by omega)
  rw [hentry] at hhalf
  rw [fractionalPower, ← cast_toRat hfin]
  generalize (ofBits (fractionalPowers.get _).1).toRat = b at *
  refine ⟨hfin, by exact_mod_cast hlow, ?_, fun h => ?_⟩
  · exact (Rat.cast_le.mpr hhigh).trans_eq (by norm_num)
  · exact (by norm_num : (5 / 4 : ℝ) = (5 / 4 : ℚ)).trans_le (Rat.cast_le.mpr (hhalf (by omega)))

/-- And its correction. -/
theorem correction_spec (k : ℤ) : (ofBits (fractionalPower k).2).isFinite = true ∧
    |(ofBits (fractionalPower k).2).toReal| ≤ 1 / 2 ^ 40 := by
  obtain ⟨-, hsmall⟩ := fractionalPowers_fit (entry (k % 128).toNat)
  exact ⟨hsmall.1, (approx_toReal hsmall (by norm_num)).size⟩

/-- An entry of the table at its place. -/
theorem scaledEntry_spec {b : Binary64} (hfin : b.isFinite = true) (hlow : 1 ≤ b.toReal)
    (hhigh : b.toReal ≤ 255 / 128) (hn : -600 ≤ n ∧ n ≤ 1021) :
    Within 1022 (b.scale n) ∧ 2 ^ 200 * unit ≤ (b.scale n).toReal ∧
      |(b.scale n).toReal - b.toReal * (twoPow n).toReal| ≤
        b.toReal * (twoPow n).toReal / 2 ^ 50 := by
  have hwithin : Within 1 b :=
    within_of_abs_toReal_le hfin (by rw [abs_of_nonneg (by linarith)]; linarith)
  have hscaled : Within 1022 (b.scale n) := hwithin.scale (by decide) (by omega)
  have hround := toReal_scale_sub_le n (hscaled.isFinite (by decide)) hfin
  rw [← toReal_twoPow_eq (by omega) (by omega)] at hround
  have hpow : 2 ^ 250 * unit ≤ (twoPow n).toReal := by
    rw [toReal_of_place (place_twoPow (by omega) (by omega))
      (isFinite_twoPow (by omega) (by omega))]
    have hle : 2 ^ 250 ≤ 2 ^ (n + places).toNat :=
      Nat.pow_le_pow_right Nat.two_pos (by rw [places]; omega)
    have hcast : (2 : ℝ) ^ 250 ≤ ((2 ^ (n + places).toNat : ℕ) : ℤ) := by exact_mod_cast hle
    exact mul_le_mul_of_nonneg_right hcast unit_pos.le
  have hunit := unit_pos
  generalize (twoPow n).toReal = p at *
  have hprod : p ≤ b.toReal * p := le_mul_of_one_le_left (by linarith) hlow
  generalize b.toReal * p = w at *
  rw [abs_of_pos (by linarith : 0 < w)] at hround
  have hmax : max (unit / 2) (w / 2 ^ 53) ≤ w / 2 ^ 50 :=
    max_le (by linarith) (by linarith)
  obtain ⟨hs, hs'⟩ := abs_le.mp (hround.trans hmax)
  exact ⟨hscaled, by linarith, abs_le.mpr ⟨hs, hs'⟩⟩

/-- And the part of it that the polynomial adds. -/
theorem smallPart_mul (hs : Within 1022 s) (hlow : 2 ^ 200 * unit ≤ s.toReal)
    (ht : t.isFinite = true) (hsmall : |t.toReal| ≤ 2945 / 1000000) : SmallPart s (s * t) := by
  have hT : Within 0 t := within_of_abs_toReal_le ht (by linarith)
  have hfin := (hs.mul hT (e := 1022) (by decide)).isFinite (by decide)
  have hunit := unit_pos
  have hpos : 0 < s.toReal := by linarith
  have hprod : |s.toReal * t.toReal| ≤ s.toReal * (2945 / 1000000) := by
    rw [abs_mul, abs_of_pos hpos]
    exact mul_le_mul_of_nonneg_left (by linarith) hpos.le
  have hround := toReal_mul_sub_le hfin
  have hlost : max (unit / 2) (|s.toReal * t.toReal| / 2 ^ 53) ≤ s.toReal / 2 ^ 40 :=
    max_le (by linarith) (by linarith)
  refine ⟨hs.isFinite (by decide), hfin, by linarith, ?_⟩
  linarith [abs_sub_abs_le_abs_sub (s * t).toReal (s.toReal * t.toReal)]

/-! ### The whole product -/

/-- The number is about `2 ^ (k / 128)`: between the powers of two on either side. -/
structure RoughPower (k : ℤ) (z : Binary64) : Prop where
  half_le : twoPow (k / 128 - 1) ≤ z
  le_of_half : 64 ≤ k % 128 → twoPow (k / 128) ≤ z
  le_twice : z ≤ twoPow (k / 128 + 1)

theorem toReal_twoPow_succ (h : -1074 ≤ n) (h' : n ≤ 1022) :
    (twoPow (n + 1)).toReal = 2 * (twoPow n).toReal := by
  rw [toReal_twoPow_eq (by omega) (by omega), toReal_twoPow_eq h (by omega),
    zpow_add_one₀ two_ne_zero]
  ring

/-- A power below one. -/
theorem assemble_bounds_neg {k : ℤ} (hk : -190000 ≤ k) (hk' : k < 0) (ht : t.isFinite = true)
    (hsmall : |t.toReal| ≤ 2945 / 1000000) : RoughPower k (assemble false k t) := by
  obtain ⟨hb, hlow, hhigh, hhalf⟩ := entry_spec k
  have hassemble : assemble false k t = settle false
      ((ofBits (fractionalPower k).1).scale (k / 128 + 1022))
      ((ofBits (fractionalPower k).1).scale (k / 128 + 1022) * t) := by
    have hfactor : signedOne false * ofBits (fractionalPower k).1 = ofBits (fractionalPower k).1 :=
      one_mul hb
    rw [assemble, if_pos hk', hfactor]
  rw [hassemble]
  generalize ofBits (fractionalPower k).1 = b at *
  obtain ⟨n, hn⟩ : ∃ n, k / 128 + 1022 = n := ⟨_, rfl⟩
  obtain ⟨hwithin, hleast, hvalue⟩ := scaledEntry_spec (n := n) hb hlow hhigh (by omega)
  rw [hn]
  generalize b.scale n = s at *
  have hpart := smallPart_mul hwithin hleast ht hsmall
  have hT : Within 0 t := within_of_abs_toReal_le ht (by linarith)
  have hfin : (s + s * t).isFinite = true :=
    (hwithin.add (hwithin.mul hT (e := 1022) (by decide)) (e := 1023) (by decide)).isFinite
      (by decide)
  have hpos := toReal_pos (twoPow_pos (n := n) (by omega) (by omega))
    (isFinite_twoPow (by omega) (by omega))
  have hdown := toReal_twoPow_succ (n := n - 1) (by omega) (by omega)
  have hup := toReal_twoPow_succ (n := n) (by omega) (by omega)
  rw [Int.sub_add_cancel] at hdown
  have hfrom := (hpart.settle_bounds hfin (i := n - 1) (by omega) (by omega)).1
  have hfrom' := (hpart.settle_bounds hfin (i := n) (by omega) (by omega)).1
  have hto := (hpart.settle_bounds hfin (i := n + 1) (by omega) (by omega)).2
  rw [show n - 1 - 1022 = k / 128 - 1 by omega] at hfrom
  rw [show n - 1022 = k / 128 by omega] at hfrom'
  rw [show n + 1 - 1022 = k / 128 + 1 by omega] at hto
  generalize (twoPow n).toReal = p at *
  obtain ⟨hs, hs'⟩ := abs_le.mp hvalue
  have hprod : b.toReal * p ≤ 255 / 128 * p := mul_le_mul_of_nonneg_right hhigh hpos.le
  have hprod' : p ≤ b.toReal * p := le_mul_of_one_le_left hpos.le hlow
  refine ⟨hfrom (by linarith), fun h => hfrom' ?_, hto (by linarith)⟩
  linarith [mul_le_mul_of_nonneg_right (hhalf h) hpos.le]

/-- A power from one on. -/
theorem assemble_bounds_nonneg {k : ℤ} (hk : 0 ≤ k) (ht : t.isFinite = true)
    (hsmall : |t.toReal| ≤ 2945 / 1000000) : RoughPower k (assemble false k t) := by
  obtain ⟨hb, hlow, hhigh, hhalf⟩ := entry_spec k
  have hassemble : assemble false k t = (ofBits (fractionalPower k).1 +
      ofBits (fractionalPower k).1 * t).scale (k / 128) := by
    have hfactor : signedOne false * ofBits (fractionalPower k).1 = ofBits (fractionalPower k).1 :=
      one_mul hb
    rw [assemble, if_neg (by omega), hfactor]
  rw [hassemble]
  generalize ofBits (fractionalPower k).1 = b at *
  have hwithin : Within 1 b :=
    within_of_abs_toReal_le hb (by rw [abs_of_nonneg (by linarith)]; linarith)
  have hT : Within 0 t := within_of_abs_toReal_le ht (by linarith)
  have hfin : (b + b * t).isFinite = true :=
    (hwithin.add (hwithin.mul hT (e := 1) (by decide)) (e := 2) (by decide)).isFinite (by decide)
  have hleast := two_pow_mul_unit_le (k := 200) (t := 1) zero_lt_one (by norm_num)
  obtain ⟨hy, hy'⟩ := (smallPart_mul (hwithin.mono (by decide)) (hleast.trans hlow) ht
    hsmall).sum_bounds hfin
  have hfrom : ∀ i : ℤ, -1074 ≤ i → i ≤ 0 → (twoPow i).toReal ≤ 99 / 100 * b.toReal →
      twoPow (k / 128 + i) ≤ (b + b * t).scale (k / 128) := by
    intro i hi hi' hle
    rw [Int.add_comm]
    exact twoPow_le_scale hi (by omega) hfin
      (le_of_toReal_le (isFinite_twoPow hi (by omega)) hfin (hle.trans hy)) _
  have hto : (b + b * t).scale (k / 128) ≤ twoPow (1 + k / 128) := by
    refine scale_le_twoPow (by decide) (by decide) hfin
      (le_of_toReal_le hfin (isFinite_twoPow (by decide) (by decide)) ?_) _
    rw [toReal_twoPow_eq (by decide) (by decide), zpow_one]
    linarith
  rw [Int.add_comm] at hto
  refine ⟨?_, fun h => ?_, hto⟩
  · refine hfrom (-1) (by decide) (by decide) ?_
    rw [toReal_twoPow_eq (by decide) (by decide), zpow_neg_one]
    linarith
  · have hzero := hfrom 0 (by decide) le_rfl
    rw [Int.add_zero, toReal_twoPow_eq (by decide) (by decide), zpow_zero] at hzero
    exact hzero (by linarith [hhalf h])

/-- **The product is as large as its table entry says.** -/
theorem assemble_bounds {k : ℤ} (hk : -190000 ≤ k) (ht : t.isFinite = true)
    (hsmall : |t.toReal| ≤ 2945 / 1000000) : RoughPower k (assemble false k t) := by
  rcases Int.lt_or_le k 0 with hneg | hpos
  · exact assemble_bounds_neg hk hneg ht hsmall
  · exact assemble_bounds_nonneg hpos ht hsmall

/-! ### The opposite sign -/

/-- The numbers are opposite, or both zero. -/
def Opposite (x y : Binary64) : Prop := ∃ a, x.place = some a ∧ y.place = some (-a)

namespace Opposite

variable {x' y' : Binary64}

theorem isFinite (h : Opposite x x') (hx : x.isFinite = true) : x'.isFinite = true := by
  obtain ⟨a, ha, ha'⟩ := h
  refine isFinite_iff_place.mpr ⟨-a, ha', ?_⟩
  rw [Int.natAbs_neg]
  exact natAbs_place_lt hx ha

theorem add (hx : Opposite x x') (hy : Opposite y y') (hfin : x.isFinite = true)
    (hfin' : y.isFinite = true) : Opposite (x + y) (x' + y') := by
  obtain ⟨a, ha, ha'⟩ := hx
  obtain ⟨b, hb, hb'⟩ := hy
  refine ⟨_, place_add hfin hfin' ha hb, ?_⟩
  rw [place_add (isFinite ⟨a, ha, ha'⟩ hfin) (isFinite ⟨b, hb, hb'⟩ hfin') ha' hb',
    ← Int.neg_add, roundPlace_neg]

theorem sub (hx : Opposite x x') (hy : Opposite y y') (hfin : x.isFinite = true)
    (hfin' : y.isFinite = true) : Opposite (x - y) (x' - y') := by
  obtain ⟨b, hb, hb'⟩ := hy
  exact hx.add ⟨-b, place_neg hb, place_neg hb'⟩ hfin (isFinite_neg.trans hfin')

theorem mul (hx : Opposite x x') (hfin : x.isFinite = true) (hy : y.isFinite = true) :
    Opposite (x * y) (x' * y) := by
  obtain ⟨a, ha, ha'⟩ := hx
  obtain ⟨b, hb, -⟩ := isFinite_iff_place.mp hy
  refine ⟨_, place_mul hfin hy ha hb, ?_⟩
  rw [place_mul (isFinite ⟨a, ha, ha'⟩ hfin) hy ha' hb, Int.neg_mul, roundPlace_neg]

theorem scale (hx : Opposite x x') (hfin : x.isFinite = true) (n : ℤ) :
    Opposite (x.scale n) (x'.scale n) := by
  obtain ⟨a, ha, ha'⟩ := hx
  refine ⟨_, place_scale hfin ha n, ?_⟩
  rw [place_scale (isFinite ⟨a, ha, ha'⟩ hfin) ha' n, Int.neg_mul, roundPlace_neg]

theorem abs_lt (hx : Opposite x x') : x'.abs.lt v = x.abs.lt v := by
  obtain ⟨a, ha, ha'⟩ := hx
  have habs := place_abs ha
  have habs' := place_abs ha'
  rw [Int.natAbs_neg] at habs'
  rw [lt, lt, habs, habs']

theorem same_zero (hx : Opposite x x') : x'.same (zero false) = x.same (zero false) := by
  obtain ⟨a, ha, ha'⟩ := hx
  rw [same, same, ha, ha', place_zero]
  simp

end Opposite

theorem opposite_one : Opposite (ofInt 1) (ofInt (-1)) := by
  refine ⟨_, place_one, ?_⟩
  rw [place_ofInt_of_short (by decide), Int.neg_one_mul]

/-- Nothing but the sign depends on the sign. -/
theorem SmallPart.settle_opposite {s' d' : Binary64} (h : SmallPart s d)
    (hfin : (s + d).isFinite = true) (hs : Opposite s s') (hd : Opposite d d') :
    Opposite (settle false s d) (settle true s' d') := by
  have hy := hs.add hd h.isFinite h.isFinite'
  have hone : Opposite (signedOne false) (signedOne true) := opposite_one
  rw [settle, settle]
  simp only [hy.abs_lt]
  split
  · rename_i hlt
    have hYwithin : Within 0 (s + d) := within_of_abs_le (le_of_lt hlt) (by decide)
    have hY := (abs_le.mp (hYwithin.abs_toReal_le (by decide))).2
    rw [pow_zero] at hY
    have hlow := (h.sum_bounds hfin).1
    obtain ⟨-, -, -, hA, hR⟩ := h.within_rest (by linarith)
    obtain ⟨hH, hC, hL, hW⟩ := within_moved hYwithin hR
    have hB : Within 2 (ofInt 1 - (ofInt 1 + (s + d))) :=
      (Within.ofInt (e := 0) (by decide)).sub hH (by decide)
    have hrest := (hs.sub hy h.isFinite hfin).add hd (hA.isFinite (by decide)) h.isFinite'
    have hhigh := hone.add hy isFinite_one hfin
    have hback := (hone.sub hhigh isFinite_one (hH.isFinite (by decide))).add hy
      (hB.isFinite (by decide)) hfin
    have hlower := hback.add hrest (hC.isFinite (by decide)) (hR.isFinite (by decide))
    have hsum := hhigh.add hlower (hH.isFinite (by decide)) (hL.isFinite (by decide))
    have hz := hsum.sub hone (hW.isFinite (by decide)) isFinite_one
    have hZ := hW.sub (Within.ofInt (n := 1) (e := 0) (by decide)) (e := 7) (by decide)
    simp only [hz.same_zero]
    split
    · exact ⟨0, place_zero _, place_zero _⟩
    · exact hz.scale (hZ.isFinite (by decide)) _
  · exact hy.scale hfin _

theorem assemble_opposite {k : ℤ} (hk : -190000 ≤ k) (ht : t.isFinite = true)
    (hsmall : |t.toReal| ≤ 2945 / 1000000) : Opposite (assemble false k t) (assemble true k t) := by
  obtain ⟨hb, hlow, hhigh, -⟩ := entry_spec k
  have hsign : Opposite (signedOne false * ofBits (fractionalPower k).1)
      (signedOne true * ofBits (fractionalPower k).1) := opposite_one.mul isFinite_one hb
  have hfactor : signedOne false * ofBits (fractionalPower k).1 = ofBits (fractionalPower k).1 :=
    one_mul hb
  rw [hfactor] at hsign
  rw [assemble, assemble, hfactor]
  generalize ofBits (fractionalPower k).1 = b at *
  generalize signedOne true * _ = b' at *
  have hT : Within 0 t := within_of_abs_toReal_le ht (by linarith)
  split
  · obtain ⟨hwithin, hleast, -⟩ := scaledEntry_spec (n := k / 128 + 1022) hb hlow hhigh (by omega)
    have hsfin := hwithin.isFinite (by decide)
    have hD := hwithin.mul hT (e := 1022) (by decide)
    have hscaled := hsign.scale hb (k / 128 + 1022)
    exact (smallPart_mul hwithin hleast ht hsmall).settle_opposite
      ((hwithin.add hD (e := 1023) (by decide)).isFinite (by decide)) hscaled (hscaled.mul hsfin ht)
  · have hwithin : Within 1 b :=
      within_of_abs_toReal_le hb (by rw [abs_of_nonneg (by linarith)]; linarith)
    have hD := hwithin.mul hT (e := 1) (by decide)
    exact (hsign.add (hsign.mul hb ht) hb (hD.isFinite (by decide))).scale
      ((hwithin.add hD (e := 2) (by decide)).isFinite (by decide)) _

end Binary64

end FriBound
