import FriBound.Proofs.Nearness

/-!
# Errors of repeated squaring

A power by repeated squaring is a tree of products, and the error of a product is that of its
factors and one rounding more. So every leaf is charged with the error of the base and with the
rounding of one product, and the count of leaves is the exponent.

Two cases are kept apart. A base of at least a half has no small powers below the exponent `1024`,
and no product comes close to the end of the format. The powers of a base below a half may get
there, and rounding may then be off by half a unit; but such an amount does not grow on the way,
since it is multiplied by numbers below one.

## Main definitions

* `NearPower`, `NearPowerUpTo` — what a product of so many leaves is near to

## Main results

* `NearPower.mul`, `NearPowerUpTo.mul` — a product of two such products
* `Near.powNat` — bases of at least a half
* `NearUpTo.powNat` — bases of at most a half
-/

namespace FriBound

open Binary64 (unit toReal)

variable {e t : ℝ} {x : Binary64}

/-- What finite products preserve is true of a finite power, if it is true of the base. The factor
one that the power starts from is left out: a product with it is exact. -/
theorem powNat_induction {P : ℕ → Binary64 → Prop}
    (hmul : ∀ {k l : ℕ} {x y : Binary64}, 0 < k → 0 < l → (x * y).isFinite = true →
      P k x → P l y → P (k + l) (x * y))
    (hx : P 1 x) {n : ℕ} (hn : 0 < n) (hfin : (Scalar.powNat x n).isFinite = true) :
    P n (Scalar.powNat x n) := by
  let Q : ℕ → Binary64 → Prop := fun k y =>
    y.isFinite = true → (k = 0 → y = .ofInt 1) ∧ (0 < k → P k y)
  have hQ : ∀ {k l : ℕ} {y z : Binary64}, Q k y → Q l z → Q (k + l) (y * z) := by
    intro k l y z hy hz hyz
    obtain ⟨hyfin, hzfin⟩ := Binary64.isFinite_mul hyz
    obtain ⟨hy0, hy⟩ := hy hyfin
    obtain ⟨hz0, hz⟩ := hz hzfin
    rcases Nat.eq_zero_or_pos k with rfl | hk
    · rw [hy0 rfl, Binary64.one_mul hzfin, Nat.zero_add]
      exact ⟨hz0, hz⟩
    rcases Nat.eq_zero_or_pos l with rfl | hl
    · rw [hz0 rfl, Binary64.mul_comm hyfin Binary64.isFinite_one, Binary64.one_mul hyfin]
      exact ⟨hy0, hy⟩
    · exact ⟨fun h0 => by omega, fun _ => hmul hk hl hyz (hy hk) (hz hl)⟩
  have hone : Q 0 (.ofInt 1) := fun _ => ⟨fun _ => rfl, fun h => absurd h (lt_irrefl 0)⟩
  have hbase : Q 1 x := fun _ => ⟨fun h => absurd h one_ne_zero, fun _ => hx⟩
  have hpow := Binary64.powNatFrom_induction (P := Q) hQ hone hbase n
  rw [Nat.zero_add, Nat.one_mul] at hpow
  exact (hpow hfin).2 hn

/-- A power of a number of at least a half is above the end of the format by 50 binary digits. -/
theorem two_pow_mul_unit_le_pow (ht : 1 / 2 ≤ t) {n : ℕ} (hn : n ≤ 1024) :
    2 ^ (49 + 1) * unit ≤ t ^ n := by
  have htpos : 0 < t := by linarith
  have hlog : -1 ≤ Real.logb 2 t := by
    rw [Real.le_logb_iff_rpow_le one_lt_two htpos, Real.rpow_neg_one]
    linarith
  have hcount : (n : ℝ) ≤ 1024 := by exact_mod_cast hn
  refine two_pow_mul_unit_le (pow_pos htpos n) ?_
  rw [Real.logb_pow]
  push_cast
  nlinarith [(Nat.cast_nonneg n : (0 : ℝ) ≤ n)]

/-- A product of `k` leaves. Each of them is charged with the error of the base and with the
rounding of one product, and there is one product less than leaves. -/
structure NearPower (e t : ℝ) (k : ℕ) (y : Binary64) : Prop where
  near : Near (k * (e + 2 / 2 ^ 49) - 1 / 2 ^ 49) y.toReal (t ^ k)

theorem Near.power_one (hx : Near e x.toReal t) : NearPower e t 1 x := by
  refine ⟨?_⟩
  rw [pow_one]
  refine hx.mono ?_
  push_cast
  linarith

theorem NearPower.mul {k l : ℕ} {y z : Binary64} (hy : NearPower e t k y) (hz : NearPower e t l z)
    (hyz : (y * z).isFinite = true) (ht : 1 / 2 ≤ t) (hkl : k + l ≤ 1024)
    (hsmall : 1024 * (e + 2 / 2 ^ 49) ≤ 1) : NearPower e t (k + l) (y * z) := by
  have hcount : ((k + l : ℕ) : ℝ) ≤ 1024 := by exact_mod_cast hkl
  have hsum : (k * (e + 2 / 2 ^ 49) - 1 / 2 ^ 49) + (l * (e + 2 / 2 ^ 49) - 1 / 2 ^ 49) ≤ 1 := by
    push_cast at hcount
    nlinarith
  have hlow : 2 ^ (49 + 1) * unit ≤ t ^ k * t ^ l :=
    pow_add t k l ▸ two_pow_mul_unit_le_pow ht hkl
  have hprod := hy.near.mul_rounded hz.near hyz hsum (by norm_num) hlow
  refine ⟨?_⟩
  rw [pow_add]
  refine hprod.mono (le_of_eq ?_)
  push_cast
  ring

/-- Powers of a number that is at least a half. -/
theorem Near.powNat (hx : Near e x.toReal t) (ht : 1 / 2 ≤ t) {n : ℕ} (hn : 0 < n)
    (hn' : n ≤ 1024) (hsmall : 1024 * (e + 2 / 2 ^ 49) ≤ 1)
    (hfin : (Scalar.powNat x n).isFinite = true) :
    Near (n * (e + 2 / 2 ^ 49)) (Scalar.powNat x n).toReal (t ^ n) := by
  have hpow := powNat_induction (P := fun k y => k ≤ 1024 → NearPower e t k y)
    (fun _ _ hyz hy hz hkl => (hy (by omega)).mul (hz (by omega)) hyz ht hkl hsmall)
    (fun _ => hx.power_one) hn hfin
  refine (hpow hn').near.mono ?_
  linarith [show (0 : ℝ) < 1 / 2 ^ 49 by positivity]

/-- The amounts of two factors and of a rounding, for a count of `k` and `l` leaves. -/
theorem amount_le {k l u r : ℝ} (hk : 1 ≤ k) (hl : 1 ≤ l) (hkl : k + l ≤ 1024) (hu : 0 ≤ u)
    (hu' : u ≤ 1 / 2 ^ 100) (hr : r ≤ 5 / 4) :
    u / 2 * r + ((2 * k - 1) * u + (2 * l - 1) * u + (2 * k - 1) * u * ((2 * l - 1) * u)) * 2 ^ eps
      ≤ (2 * (k + l) - 1) * u := by
  have hpow : (2 : ℝ) ^ eps ≤ 1 + 1 / 2 ^ 14 := by
    refine (two_rpow_le eps_pos.le ?_).trans ?_ <;> rw [eps_eq] <;> norm_num
  have hsmall : (2 * k - 1) * (2 * l - 1) * u ≤ 1 / 8 := by
    calc (2 * k - 1) * (2 * l - 1) * u ≤ 2048 * 2048 * (1 / 2 ^ 100) := by
          gcongr <;> linarith
      _ ≤ 1 / 8 := by norm_num
  have hsum : 2 * (k + l) - 2 + (2 * k - 1) * (2 * l - 1) * u ≤ 2048 := by linarith
  have hsum0 : 0 ≤ 2 * (k + l) - 2 + (2 * k - 1) * (2 * l - 1) * u := by
    have : 0 ≤ (2 * k - 1) * (2 * l - 1) * u :=
      mul_nonneg (mul_nonneg (by linarith) (by linarith)) hu
    linarith
  have hfactor : (2 * (k + l) - 2 + (2 * k - 1) * (2 * l - 1) * u) * 2 ^ eps
      ≤ 2 * (k + l) - 2 + 1 / 4 := by
    calc (2 * (k + l) - 2 + (2 * k - 1) * (2 * l - 1) * u) * 2 ^ eps
        ≤ (2 * (k + l) - 2 + (2 * k - 1) * (2 * l - 1) * u) * (1 + 1 / 2 ^ 14) := by gcongr
      _ ≤ 2 * (k + l) - 2 + 1 / 4 := by linarith
  calc u / 2 * r + ((2 * k - 1) * u + (2 * l - 1) * u + (2 * k - 1) * u * ((2 * l - 1) * u))
        * 2 ^ eps
      = (r / 2 + (2 * (k + l) - 2 + (2 * k - 1) * (2 * l - 1) * u) * 2 ^ eps) * u := by ring
    _ ≤ (2 * (k + l) - 1) * u := mul_le_mul_of_nonneg_right (by linarith) hu

/-- A product of `k` leaves, for a base that is at most a half. The amount of half a unit that a
product may be off at the end of the format is charged to the leaves as well. -/
structure NearPowerUpTo (e t : ℝ) (k : ℕ) (y : Binary64) : Prop where
  near : NearUpTo (k * (e + eps) - eps) ((2 * k - 1) * unit) y.toReal (t ^ k)

theorem Near.powerUpTo_one (hx : Near e x.toReal t) : NearPowerUpTo e t 1 x := by
  refine ⟨?_⟩
  rw [pow_one]
  have hunit := Binary64.unit_pos
  refine hx.upTo.mono ?_ ?_ <;> push_cast <;> linarith

namespace NearPowerUpTo

variable {k l : ℕ} {y z : Binary64}

/-- Such a product and its value stay below one, with the errors that the leaves are charged. -/
theorem mul_two_rpow_le_one (hy : NearPowerUpTo e t k y) (ht0 : 0 ≤ t) (ht : t ≤ 1 / 2)
    (hk : 0 < k) (hE : 0 ≤ k * (e + eps) - eps) (hE' : k * (e + eps) - eps ≤ 1 / 4)
    (hk' : (k : ℝ) ≤ 1024) :
    y.toReal * 2 ^ (k * (e + eps) - eps) ≤ 1 ∧ t ^ k * 2 ^ (k * (e + eps) - eps) ≤ 1 := by
  have hunit := Binary64.unit_pos
  have hamount : (2 * (k : ℝ) - 1) * unit ≤ 1 / 16 := by
    calc (2 * (k : ℝ) - 1) * unit ≤ 2048 * (1 / 2 ^ 100) := by
          gcongr
          · linarith
          · exact unit_le
      _ ≤ 1 / 16 := by norm_num
  have hpow : t ^ k ≤ 1 / 2 := (pow_le_of_le_one ht0 (by linarith) hk.ne').trans ht
  exact hy.near.mul_two_rpow_le_one hpow hE hE' hamount

theorem mul (hy : NearPowerUpTo e t k y) (hz : NearPowerUpTo e t l z)
    (hyz : (y * z).isFinite = true) (ht0 : 0 ≤ t) (ht : t ≤ 1 / 2) (he : 0 ≤ e) (hk : 0 < k)
    (hl : 0 < l) (hkl : k + l ≤ 1024) (hsmall : 1024 * (e + eps) ≤ 1 / 4) :
    NearPowerUpTo e t (k + l) (y * z) := by
  have hunit := Binary64.unit_pos
  have heps := eps_pos
  have hk' : (1 : ℝ) ≤ k := by exact_mod_cast hk
  have hl' : (1 : ℝ) ≤ l := by exact_mod_cast hl
  have hkl' : (k : ℝ) + l ≤ 1024 := by exact_mod_cast hkl
  have herror : ∀ {i : ℕ}, (1 : ℝ) ≤ i → (i : ℝ) ≤ 1024 →
      0 ≤ i * (e + eps) - eps ∧ i * (e + eps) - eps ≤ 1 / 4 := by
    intro i hi hi'
    constructor <;> nlinarith
  obtain ⟨hE, hE'⟩ := herror hk' (by linarith)
  obtain ⟨hF, hF'⟩ := herror hl' (by linarith)
  obtain ⟨hy1, htk⟩ := hy.mul_two_rpow_le_one ht0 ht hk hE hE' (by linarith)
  obtain ⟨hz1, htl⟩ := hz.mul_two_rpow_le_one ht0 ht hl hF hF' (by linarith)
  have hh : 0 ≤ (2 * k - 1) * unit := mul_nonneg (by linarith) hunit.le
  have hg : 0 ≤ (2 * l - 1) * unit := mul_nonneg (by linarith) hunit.le
  have hexact := hy.near.mul hz.near hh hg hy1 htk hz1 htl
  have hround := (nearUpTo_mul hy.near.nonneg hz.near.nonneg hyz).trans hexact heps.le
    (add_nonneg hE hF) (half_pos hunit).le (by positivity)
  have hexp : (2 : ℝ) ^ (k * (e + eps) - eps + (l * (e + eps) - eps)) ≤ 5 / 4 := by
    refine (two_rpow_le (add_nonneg hE hF) ?_).trans ?_ <;> nlinarith
  refine ⟨?_⟩
  rw [pow_add]
  refine hround.mono (le_of_eq ?_) ?_
  · push_cast
    ring
  · push_cast
    exact amount_le hk' hl' hkl' hunit.le unit_le hexp

end NearPowerUpTo

/-- Powers of a number that is at most a half. -/
theorem NearUpTo.powNat (hx : Near e x.toReal t) (ht : t ≤ 1 / 2) (he : 0 ≤ e) {n : ℕ} (hn : 0 < n)
    (hn' : n ≤ 1024) (hsmall : 1024 * (e + eps) ≤ 1 / 4)
    (hfin : (Scalar.powNat x n).isFinite = true) :
    NearUpTo (n * (e + eps)) (2 * n * unit) (Scalar.powNat x n).toReal (t ^ n) := by
  have hunit := Binary64.unit_pos
  have heps := eps_pos
  have hpow := powNat_induction (P := fun k y => k ≤ 1024 → NearPowerUpTo e t k y)
    (fun hk hl hyz hy hz hkl =>
      (hy (by omega)).mul (hz (by omega)) hyz hx.nonneg' ht he hk hl hkl hsmall)
    (fun _ => hx.powerUpTo_one) hn hfin
  refine (hpow hn').near.mono ?_ ?_ <;> linarith

end FriBound
