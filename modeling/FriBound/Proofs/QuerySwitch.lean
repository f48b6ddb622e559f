import FriBound.Proofs.Agreement

/-!
# Numbers of queries beyond repeated squaring

Up to `2 ^ 31 - 1` queries the query error is a power by repeated squaring, and beyond that it is
the general power. The two do not have the same errors. The general power is off by a unit in the
last place, and repeated squaring by as much for each query, which comes to its `2 ^ 22`nd part. One
query more lowers the error by the factor `alpha`. So when `alpha` is within `2 ^ (-22)` of one, the
error may rise where the one way of evaluation takes over from the other.

This module bounds the rise, and says how many queries more are enough for there to be none: by
Bernoulli's inequality `d` queries lower the power at least by the factor
`1 / (1 + d * (1 - alpha))`.

## Main definitions

* `AtLeastPower` — what repeated squaring keeps of a power
* `switchCode` — a code for which the error rises

## Main results

* `le_powNat` — a lower bound for powers by repeated squaring
* `Elementary.query_switch` — the query error on both sides of the switch
-/

namespace FriBound

open Binary64 (unit toReal InUnit unit_pos)

/-! ### Products of lower bounds -/

/-- Lower bounds, each with a relative and an absolute part of its own, give one for the product. -/
theorem sub_sub_le_mul {A B g h X Y : ℝ} (hA : 0 ≤ A) (hA' : A ≤ 1) (hB : 0 ≤ B) (hB' : B ≤ 1)
    (hg : 0 ≤ g) (hh : 0 ≤ h) (hX : 0 ≤ X) (hY : 0 ≤ Y) (hAX : A - g ≤ X) (hBY : B - h ≤ Y) :
    A * B - g - h ≤ X * Y := by
  have hXY := mul_nonneg hX hY
  rcases le_total A g with hle | hle
  · nlinarith
  rcases le_total B h with hle' | hle'
  · nlinarith
  calc A * B - g - h ≤ (A - g) * (B - h) := by nlinarith
    _ ≤ X * Y := mul_le_mul hAX hBY (sub_nonneg.mpr hle') hX

/-- The relative parts add up, and a rounding adds one more. -/
theorem one_sub_add_le {a b u : ℝ} (ha : 0 ≤ a) (hb : 0 ≤ b) (hu : 0 ≤ u) (hu' : u ≤ 1) :
    1 - (a + b + u) ≤ (1 - a) * (1 - b) * (1 - u) := by
  have hprod : 1 - a - b ≤ (1 - a) * (1 - b) := by nlinarith
  calc 1 - (a + b + u) ≤ (1 - a - b) * (1 - u) := by nlinarith
    _ ≤ (1 - a) * (1 - b) * (1 - u) := mul_le_mul_of_nonneg_right hprod (by linarith)

/-- By Bernoulli's inequality. -/
theorem rpow_mul_one_add_le {r d : ℝ} (hr : 0 < r) (hr' : r ≤ 1) (hd : 1 ≤ d) :
    r ^ d * (1 + d * (1 - r)) ≤ 1 := by
  have hinv : 1 - r ≤ r⁻¹ - 1 := by
    rw [← sub_nonneg]
    have hsquare : r⁻¹ - 1 - (1 - r) = (1 - r) ^ 2 * r⁻¹ := by
      field_simp
    rw [hsquare]
    positivity
  have hbernoulli := one_add_mul_self_le_rpow_one_add (s := r⁻¹ - 1) (by
    have := inv_pos.mpr hr
    linarith) hd
  rw [add_sub_cancel, Real.inv_rpow hr.le] at hbernoulli
  have hpow := Real.rpow_pos_of_pos hr d
  calc r ^ d * (1 + d * (1 - r)) ≤ r ^ d * (r ^ d)⁻¹ := by
        refine mul_le_mul_of_nonneg_left (le_trans ?_ hbernoulli) hpow.le
        nlinarith
    _ = 1 := mul_inv_cancel₀ hpow.ne'

/-! ### Before and beyond -/

section

variable {w z s s' h : ℝ} (hw : 0 ≤ w) (hbefore : w * (1 - 1 / 2 ^ 22) - 2 ^ 31 * h ≤ s)
  (hbeyond : s' ≤ w * z * (1 + 1 / 2 ^ 52) + h)

include hw hbefore hbeyond

/-- The rise from `s`, which is `w` from below, to `s'`, which is `w * z` from above. -/
theorem rise_le (hh : 0 ≤ h) (hz : z ≤ 1) : s' ≤ (1 + 1 / 2 ^ 21) * s + 2 ^ 32 * h := by
  have hwz : w * z ≤ w := mul_le_of_le_one_right hw hz
  linarith

/-- There is no rise if `z` makes up for the error of `s`, and the end of the format is far. -/
theorem le_of_factor {e : ℝ} (hz : 0 ≤ z) (hez : z * (1 + e) ≤ 1)
    (he : 1 / 2 ^ 21 * (1 - 1 / 2 ^ 52) ≤ e) (hlow : 2 ^ 74 * h ≤ s') : s' ≤ s := by
  have hfactor : z ≤ 1 - 1 / 2 ^ 22 - 1 / 2 ^ 23 := by
    have hle : z * (1 + 1 / 2 ^ 21 * (1 - 1 / 2 ^ 52)) ≤ 1 :=
      le_trans (mul_le_mul_of_nonneg_left (by linarith) hz) hez
    linarith
  have hwz : w * z ≤ w * (1 - 1 / 2 ^ 22 - 1 / 2 ^ 23) := mul_le_mul_of_nonneg_left hfactor hw
  have hlarge : 2 ^ 73 * h ≤ w := by linarith
  linarith

end

/-! ### Repeated squaring from below -/

variable {x y a : Binary64}

theorem toReal_inUnit (h : InUnit x) : 0 ≤ x.toReal ∧ x.toReal ≤ 1 := by
  have hone := Binary64.toReal_le_toReal h.2 h.isFinite Binary64.isFinite_one
  rw [Binary64.toReal_ofInt (by decide), Int.cast_one] at hone
  exact ⟨Binary64.toReal_nonneg h.1 h.isFinite, hone⟩

/-- What a product loses at most by rounding. -/
theorem sub_le_toReal_mul (hx : InUnit x) (hy : InUnit y) :
    x.toReal * y.toReal * (1 - 1 / 2 ^ 53) - unit ≤ (x * y).toReal := by
  have hle := (abs_le.mp (Binary64.toReal_mul_sub_le (hx.mul hy).isFinite)).1
  have hnonneg := mul_nonneg (toReal_inUnit hx).1 (toReal_inUnit hy).1
  have hpart : 0 ≤ x.toReal * y.toReal / 2 ^ 53 := by positivity
  have hunit := unit_pos
  have hmax : max (unit / 2) (|x.toReal * y.toReal| / 2 ^ 53) ≤
      unit + x.toReal * y.toReal / 2 ^ 53 := by
    rw [abs_of_nonneg hnonneg]
    exact max_le (by linarith) (by linarith)
  linarith

/-- The bound for a power without its absolute part lies between zero and one. -/
theorem pow_mul_one_sub_bounds {r : ℝ} (hr : 0 ≤ r) (hr' : r ≤ 1) {k : ℕ} (hk : 0 < k)
    (hk' : k ≤ 2 ^ 31) : (0 : ℝ) ≤ (k - 1) / 2 ^ 53 ∧
      0 ≤ r ^ k * (1 - (k - 1) / 2 ^ 53) ∧ r ^ k * (1 - (k - 1) / 2 ^ 53) ≤ 1 := by
  have hlow : (1 : ℝ) ≤ k := Nat.one_le_cast.mpr hk
  have hhigh : (k : ℝ) ≤ 2 ^ 31 := by exact_mod_cast hk'
  have hcount : ((k : ℝ) - 1) / 2 ^ 53 ≤ 1 := by
    rw [div_le_one (by positivity)]
    linarith [show (2 : ℝ) ^ 31 ≤ 2 ^ 53 by norm_num]
  have hcount' : (0 : ℝ) ≤ (k - 1) / 2 ^ 53 := div_nonneg (by linarith) (by positivity)
  exact ⟨hcount', mul_nonneg (pow_nonneg hr k) (by linarith),
    mul_le_one₀ (pow_le_one₀ hr hr') (by linarith) (by linarith)⟩

/-- A power with `k` factors `r`, of which each product has lost at most a `2 ^ 53`th part and a
unit. -/
structure AtLeastPower (r : ℝ) (k : ℕ) (x : Binary64) : Prop where
  le : r ^ k * (1 - (k - 1) / 2 ^ 53) - (k - 1) * unit ≤ x.toReal

theorem AtLeastPower.mul {r : ℝ} {k l : ℕ} {x y : Binary64} (hx : AtLeastPower r k x)
    (hy : AtLeastPower r l y) (hxunit : InUnit x) (hyunit : InUnit y) (hr : 0 ≤ r) (hr' : r ≤ 1)
    (hk : 0 < k) (hl : 0 < l) (hkl : k + l ≤ 2 ^ 31) : AtLeastPower r (k + l) (x * y) := by
  have hunit := unit_pos
  obtain ⟨hk0, hA, hA'⟩ := pow_mul_one_sub_bounds hr hr' hk (by omega)
  obtain ⟨hl0, hB, hB'⟩ := pow_mul_one_sub_bounds hr hr' hl (by omega)
  have hkpos : (0 : ℝ) ≤ (k - 1) * unit :=
    mul_nonneg (sub_nonneg.mpr (Nat.one_le_cast.mpr hk)) hunit.le
  have hlpos : (0 : ℝ) ≤ (l - 1) * unit :=
    mul_nonneg (sub_nonneg.mpr (Nat.one_le_cast.mpr hl)) hunit.le
  have hprod := sub_sub_le_mul hA hA' hB hB' hkpos hlpos (toReal_inUnit hxunit).1
    (toReal_inUnit hyunit).1 hx.le hy.le
  have hrelative := one_sub_add_le hk0 hl0 (u := 1 / 2 ^ 53) (by positivity) (by norm_num)
  have hpow : 0 ≤ r ^ (k + l) := pow_nonneg hr _
  refine ⟨?_⟩
  calc r ^ (k + l) * (1 - ((k + l : ℕ) - 1) / 2 ^ 53) - ((k + l : ℕ) - 1) * unit
      = r ^ (k + l) * (1 - ((k - 1) / 2 ^ 53 + (l - 1) / 2 ^ 53 + 1 / 2 ^ 53))
        - (k - 1) * unit - (l - 1) * unit - unit := by
        push_cast
        ring
    _ ≤ r ^ (k + l) * ((1 - (k - 1) / 2 ^ 53) * (1 - (l - 1) / 2 ^ 53) * (1 - 1 / 2 ^ 53))
        - (k - 1) * unit - (l - 1) * unit - unit := by
        linarith [mul_le_mul_of_nonneg_left hrelative hpow]
    _ = r ^ k * (1 - (k - 1) / 2 ^ 53) * (r ^ l * (1 - (l - 1) / 2 ^ 53)) * (1 - 1 / 2 ^ 53)
        - (k - 1) * unit - (l - 1) * unit - unit := by
        rw [pow_add]
        ring
    _ ≤ (r ^ k * (1 - (k - 1) / 2 ^ 53) * (r ^ l * (1 - (l - 1) / 2 ^ 53)) - (k - 1) * unit
        - (l - 1) * unit) * (1 - 1 / 2 ^ 53) - unit := by
        have : (0 : ℝ) ≤ ((k - 1) * unit + (l - 1) * unit) / 2 ^ 53 := by positivity
        linarith
    _ ≤ x.toReal * y.toReal * (1 - 1 / 2 ^ 53) - unit :=
        sub_le_sub_right (mul_le_mul_of_nonneg_right hprod (by norm_num)) _
    _ ≤ (x * y).toReal := sub_le_toReal_mul hxunit hyunit

/-- **Repeated squaring loses at most a `2 ^ 53`th part and a unit for each product.** -/
theorem le_powNat (ha : InUnit a) {n : ℕ} (hn : 0 < n) (hn' : n ≤ 2 ^ 31) :
    a.toReal ^ n * (1 - (n - 1) / 2 ^ 53) - (n - 1) * unit ≤ (Scalar.powNat a n).toReal := by
  obtain ⟨hr, hr'⟩ := toReal_inUnit ha
  have hbase : AtLeastPower a.toReal 1 a := ⟨by simp⟩
  have hpow := powNat_induction
    (P := fun k x => InUnit x ∧ (k ≤ 2 ^ 31 → AtLeastPower a.toReal k x))
    (fun hk hl _ hx hy => ⟨hx.1.mul hy.1, fun hkl => (hx.2 (by omega)).mul (hy.2 (by omega))
      hx.1 hy.1 hr hr' hk hl hkl⟩)
    ⟨ha, fun _ => hbase⟩ hn (ha.powNat n).isFinite
  exact (hpow.2 hn').le

/-! ### The two sides -/

/-- A number of queries as an exponent of the general power. It is rounded from `2 ^ 53` on. -/
theorem toReal_exponent {n : ℕ} (hn : n < 2 ^ 64) :
    n * (1 - 1 / 2 ^ 53) ≤ (Binary64.ofInt n).toReal ∧
      (2 ^ 31 ≤ n → 2 ^ 31 ≤ (Binary64.ofInt n).toReal) := by
  have hfin := Binary64.isFinite_ofInt_of_lt hn
  constructor
  · have hnear := Binary64.toReal_sub_le (f := fun w => w / 2 ^ 53) hfin (Binary64.place_ofInt n)
      (fun k => by simpa using abs_roundShort_one_sub_le k)
    have hvalue : (((n : ℤ) * unitsPerOne : ℤ) : ℝ) / ((1 : ℕ) : ℝ) * unit = n := by
      push_cast
      rw [div_one, mul_assoc, Binary64.unitsPerOne_mul_unit, mul_one]
    have hsize : |(((n : ℤ) * unitsPerOne : ℤ) : ℝ)| = ((n : ℤ) * unitsPerOne : ℤ) :=
      abs_of_nonneg (by positivity)
    rw [hsize, hvalue, div_mul_eq_mul_div, hvalue] at hnear
    have hle := (abs_le.mp hnear).1
    linarith
  · intro hlarge
    have hword : (Binary64.ofInt (2 ^ 31)).isFinite = true := Binary64.isFinite_two_pow (by decide)
    have hle := Binary64.toReal_le_toReal (Binary64.ofInt_le_ofInt (Int.ofNat_le.mpr hlarge))
      hword hfin
    rw [Binary64.toReal_ofInt (by decide)] at hle
    exact_mod_cast hle

namespace Elementary

open Binary64 (twoPow ofInt zero)

variable {E : Elementary} {p : Params Binary64} {a : Binary64} {q q' : UInt64}
  {t t' : Terms Binary64}

/-- The error before the switch, from below. -/
theorem le_query_before (ha : InUnit a) (hq : q.toNat ≤ 2 ^ 31 - 1) :
    a.toReal ^ q.toNat * (1 - 1 / 2 ^ 22) - 2 ^ 31 * unit ≤ (E.queryPower a q).toReal := by
  have hunit := unit_pos
  rw [queryPower_eq_powNat (by omega)]
  rcases Nat.eq_zero_or_pos q.toNat with h0 | hpos
  · have hone : Scalar.powNat a 0 = ofInt 1 := Scalar.powNatFrom_zero _ _
    rw [h0, hone, Binary64.toReal_ofInt (by decide)]
    norm_num
    linarith
  · refine le_trans ?_ (le_powNat ha hpos (by omega))
    have hcount : (q.toNat : ℝ) ≤ 2 ^ 31 := by
      exact_mod_cast (by omega : q.toNat ≤ 2 ^ 31)
    have hpow := pow_nonneg (toReal_inUnit ha).1 q.toNat
    have hrelative : (1 : ℝ) - 1 / 2 ^ 22 ≤ 1 - (q.toNat - 1) / 2 ^ 53 := by
      have hle : ((q.toNat : ℝ) - 1) / 2 ^ 53 ≤ 2 ^ 31 / 2 ^ 53 :=
        div_le_div_of_nonneg_right (by linarith) (by positivity)
      norm_num at hle ⊢
      linarith
    have habsolute : ((q.toNat : ℝ) - 1) * unit ≤ 2 ^ 31 * unit :=
      mul_le_mul_of_nonneg_right (by linarith) hunit.le
    linarith [mul_le_mul_of_nonneg_left hrelative hpow]

/-- The error beyond the switch, from above: the base to the number of queries before it, and to the
rest. -/
theorem query_beyond_le (hacc : E.Accurate) (ha : InUnit a) (h0 : (zero false).lt a = true)
    (hq : q.toNat ≤ 2 ^ 31 - 1) (hq' : 2 ^ 31 ≤ q'.toNat)
    (hfin : (E.queryPower a q').isFinite = true) :
    ∃ d : ℝ, 1 ≤ d ∧ ((q'.toNat : ℝ) - q.toNat) * (1 - 1 / 2 ^ 52) ≤ d ∧
      (E.queryPower a q').toReal ≤ a.toReal ^ q.toNat * a.toReal ^ d * (1 + 1 / 2 ^ 52) + unit := by
  obtain ⟨hexponent, hlarge⟩ := toReal_exponent q'.toNat_lt
  have hlarge := hlarge hq'
  have hbefore : (q.toNat : ℝ) + 1 ≤ 2 ^ 31 := by
    exact_mod_cast (by omega : q.toNat + 1 ≤ 2 ^ 31)
  have hr : 0 < a.toReal := Binary64.toReal_pos h0 ha.isFinite
  have hpow : E.queryPower a q' = E.pow a (ofInt q'.toNat) := if_neg (by omega)
  rw [hpow] at hfin ⊢
  refine ⟨(ofInt q'.toNat).toReal - q.toNat, by linarith, ?_, ?_⟩
  · have hle : (q.toNat : ℝ) ≤ q'.toNat := by
      exact_mod_cast (by omega : q.toNat ≤ q'.toNat)
    rcases Nat.lt_or_ge (2 ^ 53) q'.toNat with hround | hexact
    · -- Where the exponent is rounded, the queries before the switch are less than a half of it.
      have hhalf : 2 * (q.toNat : ℝ) ≤ q'.toNat := by
        exact_mod_cast (by omega : 2 * q.toNat ≤ q'.toNat)
      linarith
    · rw [Binary64.toReal_ofInt (by omega), Int.cast_natCast]
      linarith
  · have hnear := (abs_le.mp (hacc.pow_sub_le a (ofInt q'.toNat) ha.isFinite h0
      (Binary64.isFinite_ofInt_of_lt q'.toNat_lt) hfin)).2
    have hsplit : a.toReal ^ (ofInt q'.toNat).toReal =
        a.toReal ^ q.toNat * a.toReal ^ ((ofInt q'.toNat).toReal - q.toNat) := by
      rw [← Real.rpow_natCast, ← Real.rpow_add hr, add_sub_cancel]
    rw [hsplit, eps_eq] at hnear
    linarith

/-- **The query error on both sides of the switch.** It may rise by its `2 ^ 21`st part there, but
for what is lost at the end of the format. It does not rise if it is not next to that end and there
are so many more queries that `alpha` being next to one does not matter. -/
theorem query_switch (hacc : E.Accurate) (ha : E.alpha p = .ok a) (h0 : (zero false).lt a = true)
    (h1 : a ≤ ofInt 1) (hq : q.toNat ≤ 2 ^ 31 - 1) (hq' : 2 ^ 31 - 1 < q'.toNat)
    (ht : E.terms { p with numQueries := q } = .ok t)
    (ht' : E.terms { p with numQueries := q' } = .ok t') :
    t'.query.toReal ≤ (1 + 1 / 2 ^ 21) * t.query.toReal + 2 ^ 32 * unit ∧
      (twoPow (-1000) ≤ t.query →
        1 / 2 ^ 21 ≤ ((q'.toNat : ℝ) - q.toNat) * (1 - a.toReal) → t'.query ≤ t.query) := by
  obtain ⟨-, -, rfl⟩ := alpha_eq_ok_iff_values.mp ha
  obtain ⟨-, -, -, rfl⟩ := terms_eq_ok_iff_guarded.mp ht
  obtain ⟨-, -, hguarded, rfl⟩ := terms_eq_ok_iff_guarded.mp ht'
  have hunit : InUnit (E.values p).alpha := ⟨Binary64.le_of_lt h0, h1⟩
  have hfin' : (E.queryPower (E.values p).alpha q').isFinite = true :=
    (guarded_iff.mp hguarded).query
  show (E.queryPower (E.values p).alpha q').toReal
      ≤ (1 + 1 / 2 ^ 21) * (E.queryPower (E.values p).alpha q).toReal + 2 ^ 32 * unit ∧
    (twoPow (-1000) ≤ E.queryPower (E.values p).alpha q → _ →
      E.queryPower (E.values p).alpha q' ≤ E.queryPower (E.values p).alpha q)
  have hfin := (inUnit_queryPower (E := E) (q := q) hunit (by omega)).isFinite
  have hbefore := le_query_before (E := E) hunit hq
  obtain ⟨d, hd, hdq, hbeyond⟩ := query_beyond_le hacc hunit h0 hq (by omega) hfin'
  have hr : 0 < (E.values p).alpha.toReal := Binary64.toReal_pos h0 hunit.isFinite
  have hr' := (toReal_inUnit hunit).2
  have hw : 0 < (E.values p).alpha.toReal ^ q.toNat := pow_pos hr _
  have hz : 0 < (E.values p).alpha.toReal ^ d := Real.rpow_pos_of_pos hr d
  have hz' : (E.values p).alpha.toReal ^ d ≤ 1 := Real.rpow_le_one hr.le hr' (by linarith)
  refine ⟨rise_le hw.le hbefore hbeyond unit_pos.le hz', fun hlow hmany => ?_⟩
  have hlimit : (twoPow (-1000)).isFinite = true := Binary64.isFinite_twoPow (by decide) (by decide)
  rcases le_total (E.queryPower (E.values p).alpha q').toReal (twoPow (-1000)).toReal with hle | hge
  · exact Binary64.le_trans (Binary64.le_of_toReal_le hfin' hlimit hle) hlow
  · have hunits : (twoPow (-1000)).toReal = 2 ^ 74 * unit := by
      have hexponent : ((-1000 : ℤ) + places).toNat = 74 := rfl
      rw [Binary64.toReal_twoPow (by decide) (by decide), ← Binary64.two_pow_mul_unit _ (by decide),
        hexponent, Nat.cast_pow, Nat.cast_ofNat]
    have hgain : 1 / 2 ^ 21 * (1 - 1 / 2 ^ 52) ≤ d * (1 - (E.values p).alpha.toReal) := by
      have := mul_le_mul_of_nonneg_right hdq (sub_nonneg.mpr hr')
      linarith
    exact Binary64.le_of_toReal_le hfin' hfin (le_of_factor hw.le hbefore hbeyond hz.le
      (rpow_mul_one_add_le hr hr' hd) hgain (hunits ▸ hge))

/-- Beyond the switch, the rounded value of a power between zero and one. -/
theorem isFinite_rounded_queryPower (ha : InUnit a) (hq : 2 ^ 31 - 1 < q.toNat) :
    (rounded.queryPower a q).isFinite = true := by
  obtain ⟨hr, hr'⟩ := toReal_inUnit ha
  have hpower : rounded.queryPower a q = roundedPow a (ofInt q.toNat) := if_neg (by omega)
  have hexponent : 0 ≤ (ofInt q.toNat).toReal :=
    le_trans (by norm_num) ((toReal_exponent q.toNat_lt).2 (by omega))
  rw [hpower, roundedPow_of_isFinite ha.isFinite]
  refine Binary64.isFinite_of_le_of_le (Binary64.ofReal_nonneg (Real.rpow_nonneg hr _))
    (Binary64.ofReal_le (Real.rpow_nonneg hr _) Binary64.isFinite_one ?_) rfl Binary64.isFinite_one
  rw [Binary64.toReal_ofInt (n := 1) (by decide), Int.cast_one]
  exact Real.rpow_le_one hr hr' hexponent

theorem toReal_three_quarters : (ofInt 3 / ofInt 4).toReal = 3 / 4 := by
  have hplace : (ofInt 3 / ofInt 4).isFinite = true ∧ (ofInt 3 / ofInt 4).place
      = some ((3 : ℤ) * ((2 ^ ((-2 : ℤ) + places).toNat : ℕ) : ℤ)) := by
    decide +kernel
  rw [Binary64.toReal_of_place hplace.2 hplace.1, Int.cast_mul, Int.cast_natCast, mul_assoc,
    Binary64.two_pow_mul_unit (-2) (by decide)]
  norm_num [Real.rpow_neg]

/-- The real functions, rounded, and a code that is passed by a query with a chance of `3 / 4`. -/
theorem query_switch_quarterCode :
    ∃ t t', rounded.terms { quarterCode with numQueries := 100 } = .ok t ∧
      rounded.terms { quarterCode with numQueries := 2147483648 } = .ok t' ∧
      t'.query ≤ t.query := by
  obtain ⟨hvalues, hguarded⟩ := terms_congr (p := { quarterCode with numQueries := 100 })
    expLaws_rounded expLaws_whole (by decide) (by decide) rounded_pow_quarter
  have hwhole : (whole.values { quarterCode with numQueries := 100 }).alpha = ofInt 3 / ofInt 4 ∧
      (zero false).lt (ofInt 3 / ofInt 4) = true ∧ ofInt 3 / ofInt 4 ≤ ofInt 1 ∧
      twoPow (-1000) ≤ (whole.values { quarterCode with numQueries := 100 }).query := by
    decide +kernel
  obtain ⟨halpha, hpos, hone, hlow⟩ := hwhole
  rw [← hvalues] at halpha hlow
  have hunit : InUnit (ofInt 3 / ofInt 4) := ⟨Binary64.le_of_lt hpos, hone⟩
  have hguards : ∀ g ∈ rounded.guarded { quarterCode with numQueries := 100 },
      g.2.isFinite = true := by
    rw [hguarded]
    decide +kernel
  have hquery : (rounded.queryPower (rounded.values { quarterCode with numQueries := 100 }).alpha
      2147483648).isFinite = true := by
    rw [halpha]
    exact isFinite_rounded_queryPower hunit (by decide)
  obtain ⟨hsize, hsquare, hfield, hsum, hproximity, hfolding, -⟩ := guarded_iff.mp hguards
  have hterms : rounded.terms { quarterCode with numQueries := 100 } = .ok _ :=
    terms_eq_ok_iff_guarded.mpr ⟨Binary64.isFinite_one, quarterCode_m_ne_zero, hguards, rfl⟩
  have hterms' : rounded.terms { quarterCode with numQueries := 2147483648 } = .ok _ :=
    terms_eq_ok_iff_guarded.mpr ⟨Binary64.isFinite_one, quarterCode_m_ne_zero, guarded_iff.mpr
      ⟨hsize, hsquare, hfield, hsum, hproximity, hfolding, hquery⟩, rfl⟩
  have hok : rounded.alpha quarterCode = .ok (ofInt 3 / ofInt 4) :=
    alpha_eq_ok_iff_values.mpr ⟨Binary64.isFinite_one, quarterCode_m_ne_zero, halpha.symm⟩
  obtain ⟨-, hle⟩ :=
    query_switch accurate_rounded hok hpos hone (by decide) (by decide) hterms hterms'
  refine ⟨_, _, hterms, hterms', hle hlow ?_⟩
  have hcounts : UInt64.toNat 2147483648 = 2147483648 ∧ UInt64.toNat 100 = 100 := ⟨rfl, rfl⟩
  rw [toReal_three_quarters, hcounts.1, hcounts.2]
  norm_num

/-! ### A rise -/

/-- A code that a query is passed with a chance of about `1 - 2 ^ (-27)`. -/
def switchCode : Params Binary64 :=
  { quarterCode with m := ofInt (2 ^ 26 + 1) / ofInt (2 ^ 27) }

/-- One query more, beyond the limit of repeated squaring, and the query error is larger. -/
theorem query_switch_switchCode :
    (∃ a, tabulated.alpha switchCode = .ok a ∧ (zero false).lt a = true ∧ a.lt (ofInt 1) = true) ∧
      ∃ t t', tabulated.terms { switchCode with numQueries := 2147483647 } = .ok t ∧
        tabulated.terms { switchCode with numQueries := 2147483648 } = .ok t' ∧
        t.query.lt t'.query = true := by
  have hm : switchCode.m.isFinite = true ∧ (∀ s, switchCode.m ≠ zero s) ∧
      (tabulated.values switchCode).alpha = Binary64.ofBits 0x3feffffffc000001 := by
    decide +kernel
  obtain ⟨hfin, hzero, halpha⟩ := hm
  have hsizes : (tabulated.size switchCode.codewordSizeBits.toInt).isFinite = true ∧
      (tabulated.size switchCode.codewordSquareBits).isFinite = true ∧
      (tabulated.size switchCode.fieldSizeBits.toInt).isFinite = true ∧
      (tabulated.aritySum switchCode).isFinite = true ∧
      (tabulated.values switchCode).proximity.isFinite = true ∧
      (tabulated.values switchCode).folding.isFinite = true := by
    decide +kernel
  obtain ⟨hsize, hsquare, hfield, hsum, hproximity, hfolding⟩ := hsizes
  have hterms : ∀ q, (tabulated.queryPower (tabulated.values switchCode).alpha q).isFinite = true →
      tabulated.terms { switchCode with numQueries := q }
        = .ok (tabulated.values { switchCode with numQueries := q }) :=
    fun q hq => terms_eq_ok_iff_guarded.mpr ⟨hfin, not_exists.mpr hzero, guarded_iff.mpr
      ⟨hsize, hsquare, hfield, hsum, hproximity, hfolding, hq⟩, rfl⟩
  have hbefore : tabulated.queryPower (tabulated.values switchCode).alpha 2147483647
      = Binary64.ofBits 0x3e7e355bfb179bef := by
    rw [halpha]
    decide +kernel
  have hbeyond : tabulated.queryPower (tabulated.values switchCode).alpha 2147483648
      = Binary64.ofBits 0x3e7e355c158e9990 := by
    rw [halpha]
    decide +kernel
  refine ⟨⟨_, alpha_eq_ok_iff_values.mpr ⟨hfin, not_exists.mpr hzero, rfl⟩, ?_⟩, _, _,
    hterms _ (hbefore ▸ rfl), hterms _ (hbeyond ▸ rfl), ?_⟩
  · rw [halpha]
    decide +kernel
  · show (tabulated.queryPower (tabulated.values switchCode).alpha 2147483647).lt
      (tabulated.queryPower (tabulated.values switchCode).alpha 2147483648) = true
    rw [hbefore, hbeyond]
    decide +kernel

end Elementary

end FriBound
