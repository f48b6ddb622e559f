import FriBound.Proofs.Products
import FriBound.Proofs.SquareRoot
import FriBound.Proofs.ElementaryLaws
import Mathlib

/-!
# Binary numbers as real numbers

A finite number is a whole number of units, and a unit is the real number `2 ^ (-1074)`. Rounding a
real number to 53 digits moves it by at most its `2 ^ 53`th part, or by half a unit where there is
no room for 53 digits. So each operation is off by at most that much. A sum is a whole number of
units to begin with, and needs no allowance for the end of the format.

## Main definitions

* `Binary64.unit` — the value of a unit
* `Binary64.toReal` — the value of a finite number

## Main results

* `abs_roundShort_sub_le` — how far rounding to 53 digits moves a quotient
* `Binary64.toReal_add_sub_le`, `Binary64.toReal_mul_sub_le`, `Binary64.toReal_div_sub_le`,
  `Binary64.toReal_scale_sub_le`, `Binary64.toReal_sqrt_sub_le` — how far the operations are off
-/

namespace FriBound

/-! ### The distance of a rounded quotient -/

/-- The nearest whole number is at most a half away. -/
theorem divNearest_sub_le {a b : ℕ} (hb : 0 < b) :
    2 * ((divNearest a b * b : ℕ) - a : ℤ).natAbs ≤ b := by
  have ha : a / b * b + a % b = a := Nat.div_add_mod' a b
  have hr : a % b < b := Nat.mod_lt a hb
  have hfloor := divNearest_nearest (a := a) hb (a / b)
  have hceil := divNearest_nearest (a := a) hb (a / b + 1)
  rw [Nat.add_one_mul] at hceil
  omega

/-- Rounding moves a quotient by at most half of its last place. -/
theorem roundShort_sub_le_spare {a b : ℕ} (hb : 0 < b) :
    |(roundShort a b : ℝ) - a / b| ≤ 2 ^ Magnitude.spare (a / b) / 2 := by
  have hbpos : (0 : ℝ) < b := Nat.cast_pos.mpr hb
  have hnear := divNearest_sub_le (a := a)
    (Nat.mul_pos hb (Nat.two_pow_pos (Magnitude.spare (a / b))))
  generalize hs : Magnitude.spare (a / b) = s at hnear ⊢
  have hshort : roundShort a b = divNearest a (b * 2 ^ s) * 2 ^ s := by rw [roundShort, hs]
  generalize divNearest a (b * 2 ^ s) = q at hnear hshort
  have hreal : |(q : ℝ) * (b * 2 ^ s) - a| ≤ b * 2 ^ s / 2 := by
    have hcast : (2 * |(q * (b * 2 ^ s) : ℤ) - a| : ℤ) ≤ b * 2 ^ s := by
      have := Int.ofNat_le.mpr hnear
      push_cast at this
      exact_mod_cast this
    have : (2 : ℝ) * |(q : ℝ) * (b * 2 ^ s) - a| ≤ b * 2 ^ s := by exact_mod_cast hcast
    linarith
  have hsplit : (roundShort a b : ℝ) - a / b = ((q : ℝ) * (b * 2 ^ s) - a) / b := by
    rw [hshort]
    push_cast
    field_simp
  rw [hsplit, abs_div, abs_of_pos hbpos, div_le_iff₀ hbpos]
  linarith

/-- Rounding to 53 digits moves a quotient by at most its `2 ^ 53`th part, or by a half. -/
theorem abs_roundShort_sub_le {a b : ℕ} (hb : 0 < b) :
    |(roundShort a b : ℝ) - a / b| ≤ max (1 / 2) ((a / b : ℝ) / 2 ^ 53) := by
  have hspare := roundShort_sub_le_spare (a := a) hb
  rcases Nat.eq_zero_or_pos (Magnitude.spare (a / b)) with hs | hs
  · rw [hs, pow_zero] at hspare
    exact hspare.trans (le_max_left ..)
  · have hle : ((2 ^ (52 + Magnitude.spare (a / b)) : ℕ) : ℝ) ≤ (a / b : ℕ) :=
      Nat.cast_le.mpr (Magnitude.two_pow_spare_le hs.ne')
    have hdiv : ((a / b : ℕ) : ℝ) ≤ a / b := Nat.cast_div_le
    refine hspare.trans (le_trans ?_ (le_max_right ..))
    rw [le_div_iff₀ (by positivity)]
    push_cast at hle
    rw [pow_add] at hle
    linarith

/-- A whole number is moved by at most its `2 ^ 53`th part, and not at all below `2 ^ 53`. -/
theorem abs_roundShort_one_sub_le (a : ℕ) : |(roundShort a 1 : ℝ) - a| ≤ a / 2 ^ 53 := by
  rcases Nat.eq_zero_or_pos (Magnitude.spare a) with hs | hs
  · have hlt := Magnitude.lt_two_pow_spare a
    rw [hs] at hlt
    have hexact := roundShort_of_short (short_of_le hlt.le) Nat.one_pos
    rw [Nat.mul_one] at hexact
    rw [hexact, sub_self, abs_zero]
    positivity
  · have hspare := roundShort_sub_le_spare (a := a) Nat.one_pos
    have hle : ((2 ^ (52 + Magnitude.spare a) : ℕ) : ℝ) ≤ a :=
      Nat.cast_le.mpr (Magnitude.two_pow_spare_le hs.ne')
    rw [Nat.div_one, Nat.cast_one, div_one] at hspare
    refine hspare.trans ?_
    rw [le_div_iff₀ (by positivity)]
    push_cast at hle
    rw [pow_add] at hle
    linarith

namespace Binary64

variable {x y : Binary64}

theorem abs_roundPlace_natCast_sub_le {f : ℝ → ℝ} {z : ℤ} {b : ℕ}
    (h : ∀ a : ℕ, |(roundShort a b : ℝ) - a / b| ≤ f (a / b))
    (hlimit : (roundPlace z b).natAbs < unitLimit) :
    |(roundPlace z b : ℝ) - z / b| ≤ f (|(z : ℝ)| / b) := by
  have hshort : ∀ a : ℕ, (roundPlace a b).natAbs < unitLimit → roundPlace a b = roundShort a b := by
    intro a ha
    rw [natAbs_roundPlace, Int.natAbs_natCast] at ha
    rw [roundPlace_natCast]
    omega
  obtain ⟨a, rfl | rfl⟩ := z.eq_nat_or_neg
  · rw [hshort a hlimit]
    simpa using h a
  · rw [roundPlace_neg, Int.natAbs_neg] at hlimit
    rw [roundPlace_neg, hshort a hlimit]
    have hneg : ((-(roundShort a b : ℤ) : ℤ) : ℝ) - ((-(a : ℤ) : ℤ) : ℝ) / b =
        -((roundShort a b : ℝ) - a / b) := by
      push_cast
      ring
    rw [hneg]
    simpa [-neg_sub] using h a

/-! ### The value of a number -/

/-- The value of a unit, `2 ^ (-1074)`. -/
noncomputable def unit : ℝ := 1 / unitsPerOne

theorem unit_pos : 0 < unit := one_div_pos.mpr (Nat.cast_pos.mpr unitsPerOne_pos)

theorem unitsPerOne_mul_unit : (unitsPerOne : ℝ) * unit = 1 :=
  mul_one_div_cancel (Nat.cast_pos.mpr unitsPerOne_pos).ne'

/-- A power of two is a whole number of units. -/
theorem two_pow_mul_unit (n : ℤ) (h : -1074 ≤ n) :
    ((2 ^ (n + places).toNat : ℕ) : ℝ) * unit = 2 ^ (n : ℝ) := by
  have hnat : ((n + places).toNat : ℝ) = (n : ℝ) + (places : ℝ) := by
    have hcast : ((n + places).toNat : ℤ) = n + places :=
      Int.toNat_of_nonneg (by unfold places; omega)
    exact_mod_cast hcast
  have hone : (unitsPerOne : ℝ) = 2 ^ (places : ℝ) := by
    rw [unitsPerOne_eq, Real.rpow_natCast, Nat.cast_pow, Nat.cast_ofNat]
  rw [unit, hone, Nat.cast_pow, Nat.cast_ofNat, ← Real.rpow_natCast, hnat, mul_one_div,
    ← Real.rpow_sub two_pos, add_sub_cancel_right]

theorem unit_eq : unit = 2 ^ (-1074 : ℝ) := by
  have h := two_pow_mul_unit (-1074) le_rfl
  have hzero : ((-1074 : ℤ) + places).toNat = 0 := rfl
  rw [hzero, pow_zero, Nat.cast_one, Int.cast_neg, Int.cast_ofNat] at h
  linarith

/-- The value of a finite number. -/
noncomputable def toReal : Binary64 → ℝ
  | .fin s x => signed s x * unit
  | _ => 0

theorem toReal_of_place {a : ℤ} (ha : x.place = some a) (hx : x.isFinite = true) :
    x.toReal = a * unit := by
  obtain ⟨s, m, rfl, rfl⟩ := exists_fin_of_place hx ha
  rfl

theorem toReal_zero (s : Bool) : (zero s).toReal = 0 := by
  rw [toReal_of_place (place_zero s) rfl, Int.cast_zero, MulZeroClass.zero_mul]

theorem toReal_neg_zero : (-ofInt 0).toReal = 0 := by
  rw [ofInt_zero]
  exact toReal_zero true

theorem toReal_ofInt {n : ℤ} (h : n.natAbs ≤ 2 ^ 53) : (ofInt n).toReal = n := by
  obtain ⟨m, hm, -⟩ := ofInt_eq_fin h
  have hfin : (ofInt n).isFinite = true := by rw [hm]; rfl
  rw [toReal_of_place (place_ofInt_of_short h) hfin, Int.cast_mul, Int.cast_natCast, mul_assoc,
    unitsPerOne_mul_unit, mul_one]

theorem toReal_ofHalves {n : ℤ} (h : n.natAbs ≤ 2 ^ 53) : (ofHalves n).toReal = n / 2 := by
  obtain ⟨e, he⟩ : ∃ e, places = e + 1 := ⟨1073, rfl⟩
  have hunits : unitsPerOne = 2 ^ e * 2 := by rw [unitsPerOne_eq, he, Nat.pow_succ]
  have hsize : (n * (2 ^ e : ℕ)).natAbs = n.natAbs * 2 ^ e := by
    rw [Int.natAbs_mul, Int.natAbs_natCast]
  have hlimit : (n * (2 ^ e : ℕ)).natAbs ≤ unitLimit := by
    calc (n * (2 ^ e : ℕ)).natAbs ≤ 2 ^ 53 * 2 ^ e := hsize ▸ Nat.mul_le_mul_right _ h
      _ = 2 ^ (53 + e) := (Nat.pow_add ..).symm
      _ ≤ unitLimit := by
        rw [unitLimit_eq]
        exact Nat.pow_le_pow_right Nat.two_pos (by unfold places at he; unfold topDigits; omega)
  have hexact := roundPlace_of_short ⟨_, e, h, hsize⟩ hlimit Nat.two_pos
  have hplace := place_ofHalves n
  rw [hunits, Int.natCast_mul, ← Int.mul_assoc, hexact] at hplace
  have hfin : (ofHalves n).isFinite = true :=
    Within.isFinite (e := 53) (Within.ofHalves (by omega)) (by decide)
  have hone := unitsPerOne_mul_unit
  rw [hunits, Nat.cast_mul, Nat.cast_ofNat] at hone
  rw [toReal_of_place hplace hfin, Int.cast_mul, Int.cast_natCast]
  linear_combination (n / 2 : ℝ) * hone

theorem toReal_twoPow {n : ℤ} (h : -1074 ≤ n) (h' : n ≤ 1023) :
    (twoPow n).toReal = 2 ^ (n : ℝ) := by
  rw [toReal_of_place (place_twoPow h h') (isFinite_twoPow h h'), Int.cast_natCast,
    two_pow_mul_unit n h]

/-- Twice a number is exact. -/
theorem toReal_two_mul (h : (ofInt 2 * x).isFinite = true) :
    (ofInt 2 * x).toReal = 2 * x.toReal := by
  have hx := (isFinite_mul h).2
  obtain ⟨a, ha, -⟩ := isFinite_iff_place.mp hx
  have hplace := place_mul (isFinite_mul h).1 hx (place_ofInt_of_short (n := 2) (by decide)) ha
  have hcomm : (2 : ℤ) * unitsPerOne * a = 2 * a * unitsPerOne := by ring
  rw [hcomm] at hplace
  have hshort : Short (2 * a).natAbs := by
    obtain ⟨q, s, hq, hu⟩ := short_place ha
    refine ⟨q, s + 1, hq, ?_⟩
    rw [Int.natAbs_mul, hu, Nat.pow_succ]
    ring
  have hlimit : (2 * a).natAbs ≤ unitLimit := by
    have hlt := natAbs_place_lt h hplace
    rw [natAbs_roundPlace, Int.natAbs_mul (2 * a), Int.natAbs_natCast,
      roundShort_of_short hshort unitsPerOne_pos] at hlt
    omega
  rw [roundPlace_of_short hshort hlimit unitsPerOne_pos] at hplace
  rw [toReal_of_place hplace h, toReal_of_place ha hx]
  push_cast
  ring

theorem toReal_le_toReal (h : x ≤ y) (hx : x.isFinite = true) (hy : y.isFinite = true) :
    x.toReal ≤ y.toReal := by
  obtain ⟨a, b, ha, hb, hab⟩ := le_iff_place.mp h
  rw [toReal_of_place ha hx, toReal_of_place hb hy]
  exact mul_le_mul_of_nonneg_right (Int.cast_le.mpr hab) unit_pos.le

theorem toReal_pos (h : (zero false).lt x = true) (hx : x.isFinite = true) : 0 < x.toReal := by
  obtain ⟨a, b, ha, hb, hab⟩ := lt_iff_place.mp h
  rw [place_zero, Option.some.injEq] at ha
  rw [toReal_of_place hb hx]
  exact mul_pos (Int.cast_pos.mpr (by omega)) unit_pos

theorem toReal_nonneg (h : zero false ≤ x) (hx : x.isFinite = true) : 0 ≤ x.toReal := by
  obtain ⟨a, ha, hpos⟩ := zero_le_iff_place.mp h
  rw [toReal_of_place ha hx]
  have := unit_pos
  positivity

theorem le_of_toReal_le (hx : x.isFinite = true) (hy : y.isFinite = true)
    (h : x.toReal ≤ y.toReal) : x ≤ y := by
  obtain ⟨a, ha, -⟩ := isFinite_iff_place.mp hx
  obtain ⟨b, hb, -⟩ := isFinite_iff_place.mp hy
  rw [toReal_of_place ha hx, toReal_of_place hb hy] at h
  exact le_iff_place.mpr ⟨a, b, ha, hb, Int.cast_le.mp (le_of_mul_le_mul_right h unit_pos)⟩

theorem toReal_neg (hx : x.isFinite = true) : (-x).toReal = -x.toReal := by
  obtain ⟨a, ha, -⟩ := isFinite_iff_place.mp hx
  rw [toReal_of_place (place_neg ha) (isFinite_neg.trans hx), toReal_of_place ha hx, Int.cast_neg,
    neg_mul]

theorem isFinite_abs : x.abs.isFinite = x.isFinite := by
  cases x <;> rfl

theorem abs_toReal_of_place {a : ℤ} (ha : x.place = some a) (hx : x.isFinite = true) :
    |x.toReal| = a.natAbs * unit := by
  rw [toReal_of_place ha hx, abs_mul, abs_of_pos unit_pos, Nat.cast_natAbs, Int.cast_abs]

theorem toReal_abs (hx : x.isFinite = true) : x.abs.toReal = |x.toReal| := by
  obtain ⟨a, ha, -⟩ := isFinite_iff_place.mp hx
  rw [toReal_of_place (place_abs ha) (isFinite_abs.trans hx), abs_toReal_of_place ha hx,
    Int.cast_natCast]

theorem abs_toReal_le_of_abs_lt (hx : x.isFinite = true) (hy : y.isFinite = true)
    (h : x.abs.lt y = true) : |x.toReal| ≤ y.toReal :=
  toReal_abs hx ▸ toReal_le_toReal (le_of_lt h) (isFinite_abs.trans hx) hy

theorem le_abs_toReal_of_not_abs_lt (hx : x.isFinite = true) (hy : y.isFinite = true)
    (h : x.abs.lt y = false) : y.toReal ≤ |x.toReal| :=
  toReal_abs hx ▸ toReal_le_toReal (le_of_not_lt (ne_nan_of_isFinite (isFinite_abs.trans hx))
    (ne_nan_of_isFinite hy) h) hy (isFinite_abs.trans hx)

theorem AtMost.abs_toReal_le {u : ℕ} (h : AtMost u x) (hx : x.isFinite = true) :
    |x.toReal| ≤ u * unit := by
  obtain ⟨a, ha, hle⟩ := h
  rw [abs_toReal_of_place ha hx]
  exact mul_le_mul_of_nonneg_right (Nat.cast_le.mpr hle) unit_pos.le

theorem two_pow_add_places_mul_unit (e : ℕ) : ((2 ^ (e + places) : ℕ) : ℝ) * unit = 2 ^ e := by
  rw [two_pow_add_places, Nat.cast_mul, mul_assoc, unitsPerOne_mul_unit, mul_one, Nat.cast_pow,
    Nat.cast_ofNat]

theorem Within.abs_toReal_le {e : ℕ} (h : Within e x) (he : e < 1024) : |x.toReal| ≤ 2 ^ e :=
  (AtMost.abs_toReal_le h (h.isFinite he)).trans_eq (two_pow_add_places_mul_unit e)

theorem within_of_abs_toReal_le {e : ℕ} (hx : x.isFinite = true) (h : |x.toReal| ≤ 2 ^ e) :
    Within e x := by
  obtain ⟨a, ha, -⟩ := isFinite_iff_place.mp hx
  refine ⟨a, ha, ?_⟩
  rw [abs_toReal_of_place ha hx, ← two_pow_add_places_mul_unit] at h
  exact_mod_cast le_of_mul_le_mul_right h unit_pos

/-! ### The distance of a result -/

/-- What rounding to a place does to a value. -/
theorem toReal_sub_le {f : ℝ → ℝ} {z : ℤ} {b : ℕ} (hx : x.isFinite = true)
    (hplace : x.place = some (roundPlace z b))
    (h : ∀ a : ℕ, |(roundShort a b : ℝ) - a / b| ≤ f (a / b)) :
    |x.toReal - z / b * unit| ≤ f (|(z : ℝ)| / b) * unit := by
  rw [toReal_of_place hplace hx, ← sub_mul, abs_mul, abs_of_pos unit_pos]
  exact mul_le_mul_of_nonneg_right
    (abs_roundPlace_natCast_sub_le h (natAbs_place_lt hx hplace)) unit_pos.le

/-- The exact sum, which the sum is rounded from. -/
theorem exists_place_add (hx : x.isFinite = true) (hy : y.isFinite = true) :
    ∃ z : ℤ, (x + y).place = some (roundPlace z 1) ∧ x.toReal + y.toReal = z * unit := by
  obtain ⟨a, ha, -⟩ := isFinite_iff_place.mp hx
  obtain ⟨b, hb, -⟩ := isFinite_iff_place.mp hy
  refine ⟨a + b, place_add hx hy ha hb, ?_⟩
  rw [toReal_of_place ha hx, toReal_of_place hb hy, Int.cast_add, add_mul]

/-- A sum of two numbers is off by at most its `2 ^ 53`th part, however small it is. -/
theorem toReal_add_sub_le (h : (x + y).isFinite = true) :
    |(x + y).toReal - (x.toReal + y.toReal)| ≤ |x.toReal + y.toReal| / 2 ^ 53 := by
  obtain ⟨z, hz, hsum⟩ := exists_place_add (isFinite_add h).1 (isFinite_add h).2
  have hnear := toReal_sub_le (f := fun w => w / 2 ^ 53) h hz
    (fun n => by simpa using abs_roundShort_one_sub_le n)
  rw [Nat.cast_one, div_one, div_one] at hnear
  rw [hsum, abs_mul, abs_of_pos unit_pos]
  refine hnear.trans_eq ?_
  ring

theorem toReal_sub_sub_le (h : (x - y).isFinite = true) :
    |(x - y).toReal - (x.toReal - y.toReal)| ≤ |x.toReal - y.toReal| / 2 ^ 53 := by
  have hy : y.isFinite = true := isFinite_neg.symm.trans (isFinite_add h).2
  have hsum : |(x - y).toReal - (x.toReal + (-y).toReal)| ≤ |x.toReal + (-y).toReal| / 2 ^ 53 :=
    toReal_add_sub_le h
  rwa [toReal_neg hy, ← sub_eq_add_neg] at hsum

/-- Rounding does not lead beyond a number: where the exact sum is at least `v`, the sum is. -/
theorem le_add_of_toReal_le {v : Binary64} (hx : x.isFinite = true) (hy : y.isFinite = true)
    (hv : v.isFinite = true) (h : v.toReal ≤ x.toReal + y.toReal) : v ≤ x + y := by
  obtain ⟨z, hz, hsum⟩ := exists_place_add hx hy
  obtain ⟨c, hc, -⟩ := isFinite_iff_place.mp hv
  rw [toReal_of_place hc hv, hsum] at h
  have hle : c ≤ z := Int.cast_le.mp (le_of_mul_le_mul_right h unit_pos)
  exact le_iff_place.mpr ⟨c, _, hc, hz,
    le_roundPlace (short_place hc) (natAbs_place_le hc) Nat.one_pos (by omega)⟩

theorem add_le_of_toReal_le {v : Binary64} (hx : x.isFinite = true) (hy : y.isFinite = true)
    (hv : v.isFinite = true) (h : x.toReal + y.toReal ≤ v.toReal) : x + y ≤ v := by
  obtain ⟨z, hz, hsum⟩ := exists_place_add hx hy
  obtain ⟨c, hc, -⟩ := isFinite_iff_place.mp hv
  rw [toReal_of_place hc hv, hsum] at h
  have hle : z ≤ c := Int.cast_le.mp (le_of_mul_le_mul_right h unit_pos)
  exact le_iff_place.mpr ⟨_, c, hz, hc,
    roundPlace_le (short_place hc) (natAbs_place_le hc) Nat.one_pos (by omega)⟩

theorem zero_le_sub (hx : x.isFinite = true) (hy : y.isFinite = true) (h : x ≤ y) :
    zero false ≤ y - x := by
  refine le_add_of_toReal_le (y := -x) hy (isFinite_neg.trans hx) rfl ?_
  rw [toReal_neg hx, toReal_zero]
  linarith [toReal_le_toReal h hx hy]

/-- A quotient is off by at most its `2 ^ 53`th part, or by half a unit. -/
theorem toReal_round_sub_le {z : ℤ} {b : ℕ} {t : ℝ} (hx : x.isFinite = true) (hb : 0 < b)
    (hplace : x.place = some (roundPlace z b)) (ht : t = z / b * unit) :
    |x.toReal - t| ≤ max (unit / 2) (|t| / 2 ^ 53) := by
  have hnear := toReal_sub_le (f := fun w => max (1 / 2) (w / 2 ^ 53)) hx hplace
    (fun n => abs_roundShort_sub_le hb)
  rw [ht, abs_mul, abs_div, abs_of_pos unit_pos, Nat.abs_cast]
  refine hnear.trans_eq ?_
  rw [max_mul_of_nonneg _ _ unit_pos.le]
  congr 1 <;> ring

theorem toReal_mul_sub_le (h : (x * y).isFinite = true) :
    |(x * y).toReal - x.toReal * y.toReal| ≤ max (unit / 2) (|x.toReal * y.toReal| / 2 ^ 53) := by
  obtain ⟨hx, hy⟩ := isFinite_mul h
  obtain ⟨a, ha, -⟩ := isFinite_iff_place.mp hx
  obtain ⟨b, hb, -⟩ := isFinite_iff_place.mp hy
  refine toReal_round_sub_le h unitsPerOne_pos (place_mul hx hy ha hb) ?_
  rw [toReal_of_place ha hx, toReal_of_place hb hy, Int.cast_mul, unit]
  ring

theorem toReal_mul_nonneg (hx : 0 ≤ x.toReal) (hy : 0 ≤ y.toReal)
    (h : (x * y).isFinite = true) : 0 ≤ (x * y).toReal := by
  have hplace : ∀ {z : Binary64} {a : ℤ}, z.isFinite = true → z.place = some a →
      0 ≤ z.toReal → 0 ≤ a := by
    intro z a hz ha hz0
    rw [toReal_of_place ha hz] at hz0
    exact_mod_cast nonneg_of_mul_nonneg_left hz0 unit_pos
  obtain ⟨hxfin, hyfin⟩ := isFinite_mul h
  obtain ⟨a, ha, -⟩ := isFinite_iff_place.mp hxfin
  obtain ⟨b, hb, -⟩ := isFinite_iff_place.mp hyfin
  rw [toReal_of_place (place_mul hxfin hyfin ha hb) h]
  have hprod : 0 ≤ a * b := Int.mul_nonneg (hplace hxfin ha hx) (hplace hyfin hb hy)
  have hround : 0 ≤ roundPlace (a * b) unitsPerOne := roundPlace_nonneg _ hprod
  have := unit_pos
  positivity

theorem toReal_div_sub_le (h : (x / y).isFinite = true) (hy : y.isFinite = true)
    (hpos : (zero false).lt y = true) :
    |(x / y).toReal - x.toReal / y.toReal| ≤ max (unit / 2) (|x.toReal / y.toReal| / 2 ^ 53) := by
  have hx := (isFinite_div h).1
  obtain ⟨a, ha, -⟩ := isFinite_iff_place.mp hx
  obtain ⟨m, rfl, hm⟩ := exists_fin_of_pos hy hpos
  have hunits : 0 < m.units := Nat.pos_of_ne_zero hm
  refine toReal_round_sub_le h hunits (place_div hx hy ha rfl hunits) ?_
  have hvalue : (fin false m).toReal = m.units * unit := by
    rw [toReal_of_place (place_fin false m) hy]
    rfl
  have hcancel : (a : ℝ) * unitsPerOne / m.units * unit = a * (unitsPerOne * unit) / m.units := by
    ring
  rw [toReal_of_place ha hx, hvalue, mul_div_mul_right _ _ unit_pos.ne', Int.cast_mul,
    Int.cast_natCast, hcancel, unitsPerOne_mul_unit, mul_one]

theorem toReal_scale_sub_le (n : ℤ) (h : (x.scale n).isFinite = true) (hx : x.isFinite = true) :
    |(x.scale n).toReal - x.toReal * 2 ^ n| ≤ max (unit / 2) (|x.toReal * 2 ^ n| / 2 ^ 53) := by
  obtain ⟨a, ha, -⟩ := isFinite_iff_place.mp hx
  refine toReal_round_sub_le h (Nat.two_pow_pos _) (place_scale hx ha n) ?_
  have hpow : (2 : ℝ) ^ n = 2 ^ n.toNat / 2 ^ (-n).toNat := by
    rw [eq_div_iff (by positivity), ← zpow_natCast, ← zpow_natCast, ← zpow_add₀ two_ne_zero]
    congr 1
    omega
  rw [toReal_of_place ha hx, hpow]
  push_cast
  ring

/-- What a root is rounded from is at most a half away from it. -/
theorem rootHalves_sub_le (n : ℕ) : |(rootHalves n : ℝ) / 2 - √n| ≤ 1 / 2 := by
  have hle : (n.sqrt : ℝ) ≤ √n := Real.nat_sqrt_le_real_sqrt
  have hlt : √n ≤ n.sqrt + 1 := Real.real_sqrt_le_nat_sqrt_succ
  rw [rootHalves]
  split
  · rename_i hn
    have hroot : √n = n.sqrt := by
      have hsq : (n : ℝ) = (n.sqrt : ℝ) * n.sqrt := by exact_mod_cast hn.symm
      rw [hsq, Real.sqrt_mul_self (Nat.cast_nonneg _)]
    rw [hroot]
    push_cast
    norm_num
  · push_cast
    rw [abs_le]
    constructor <;> linarith

theorem sqrt_toReal_fin (m : Magnitude) :
    √(fin false m).toReal = √(m.units * unitsPerOne : ℕ) * unit := by
  have hvalue : (fin false m).toReal = (m.units * unitsPerOne : ℕ) * unit ^ 2 := by
    have hunits : ((m.units * unitsPerOne : ℕ) : ℝ) * unit ^ 2
        = m.units * unit * (unitsPerOne * unit) := by
      rw [Nat.cast_mul]
      ring
    rw [hunits, unitsPerOne_mul_unit, mul_one]
    rfl
  rw [hvalue, Real.sqrt_mul (Nat.cast_nonneg _), Real.sqrt_sq unit_pos.le]

theorem two_pow_le_sqrt_units {m : Magnitude} (hm : m.units ≠ 0) :
    (2 : ℝ) ^ 60 ≤ √(m.units * unitsPerOne : ℕ) := by
  have hnat : 2 ^ 120 ≤ m.units * unitsPerOne :=
    calc 2 ^ 120 ≤ unitsPerOne := by
          rw [unitsPerOne_eq]
          exact Nat.pow_le_pow_right Nat.two_pos (by decide)
      _ ≤ m.units * unitsPerOne := Nat.le_mul_of_pos_left _ (Nat.pos_of_ne_zero hm)
  have hreal : ((2 : ℝ) ^ 60) ^ 2 ≤ (m.units * unitsPerOne : ℕ) := by
    rw [← pow_mul]
    exact_mod_cast hnat
  exact Real.le_sqrt_of_sq_le hreal

/-- A root is off by at most its `2 ^ 52`th part: it is far above the end of the format. -/
theorem toReal_sqrt_sub_le (hx : x.isFinite = true) (hpos : (zero false).lt x = true) :
    |x.sqrt.toReal - √x.toReal| ≤ √x.toReal / 2 ^ 52 := by
  have hfin := isFinite_sqrt_of_pos hx hpos
  obtain ⟨m, rfl, hm⟩ := exists_fin_of_pos hx hpos
  rw [sqrt_fin hm] at hfin ⊢
  have hnear := toReal_sub_le (f := fun w => max (1 / 2) (w / 2 ^ 53)) hfin
    (place_round_false ..) (fun n => abs_roundShort_sub_le Nat.two_pos)
  have hhalves := rootHalves_sub_le (m.units * unitsPerOne)
  have hlarge := two_pow_le_sqrt_units hm
  rw [sqrt_toReal_fin]
  generalize m.units * unitsPerOne = n at hnear hhalves hlarge ⊢
  have hupper := (abs_le.mp hhalves).2
  have hnonneg : (0 : ℝ) ≤ rootHalves n := Nat.cast_nonneg _
  have hmax : max (1 / 2) ((rootHalves n : ℝ) / 2 / 2 ^ 53) + 1 / 2 ≤ √n / 2 ^ 52 := by
    rcases max_choice (1 / 2 : ℝ) ((rootHalves n : ℝ) / 2 / 2 ^ 53) with h | h
    · rw [h]
      linarith
    · rw [h]
      linarith
  rw [Int.cast_natCast, Nat.cast_ofNat, abs_of_nonneg hnonneg] at hnear
  have hsplit : (round false (rootHalves n) 2).toReal - √n * unit
      = ((round false (rootHalves n) 2).toReal - (rootHalves n : ℝ) / 2 * unit)
        + ((rootHalves n : ℝ) / 2 - √n) * unit := by
    ring
  calc |(round false (rootHalves n) 2).toReal - √n * unit|
      ≤ |(round false (rootHalves n) 2).toReal - (rootHalves n : ℝ) / 2 * unit|
        + |((rootHalves n : ℝ) / 2 - √n) * unit| := by
          rw [hsplit]
          exact abs_add_le _ _
    _ ≤ max (1 / 2) ((rootHalves n : ℝ) / 2 / 2 ^ 53) * unit + 1 / 2 * unit := by
          rw [abs_mul, abs_of_pos unit_pos]
          gcongr
          exact unit_pos.le
    _ ≤ √n * unit / 2 ^ 52 := by
          rw [← add_mul, mul_div_right_comm]
          exact mul_le_mul_of_nonneg_right hmax unit_pos.le

end Binary64

end FriBound
