import FriBound.Proofs.Accuracy

/-!
# The error of the bound

The terms of a bound are compared with the exact ones, for valid parameters. All values on the way
have room for 53 digits, apart from two kinds: the errors of the proximity gap and of the folding
are quotients by the size of the field and may come out at the end of the format, though not far
into it; and powers of a small `alpha` may run into it, where they are too small to matter next to
the proximity error.

The rate has to be at least `2 ^ (-681)`: below, its power in the denominator of the proximity error
has no leading one, and so few digits that the bound is far off.

## Main definitions

* `Params.Moderate` — a limit to the rate, the queries and the rounds

## Main results

* `Elementary.Evaluable.near_proximity`, `Elementary.Evaluable.near_folding`,
  `Elementary.Evaluable.near_query`, `Elementary.Evaluable.nearUpTo_query` — the errors of the terms
* `Elementary.Evaluable.near_total` — the error of the bound
-/

namespace FriBound

open Binary64 (unit toReal ofInt ofHalves twoPow zero)
open Exact (realRate realAlpha realProximity realFolding realAritySum)

/-- Parameters that are far from all limits of the format. -/
structure Params.Moderate (p : Params Binary64) : Prop where
  rateBits_le : p.rateBits.toInt ≤ 681
  numQueries_le : p.numQueries.toNat ≤ 1024
  length_le : p.arityBits.length ≤ 65536

/-- The exact bound. -/
noncomputable def Params.exactTotal (p : Params Binary64) : ℝ :=
  realProximity p.exactly p.m.toReal + realFolding p.exactly p.m.toReal
    + realAlpha p.exactly p.m.toReal ^ p.numQueries.toNat

namespace Elementary.Evaluable

variable {E : Elementary} {p : Params Binary64}

theorem toReal_m_pos (h : E.Evaluable p) : 0 < p.m.toReal := Binary64.toReal_pos h.m_pos.2 h.m_pos.1

/-! ### The chance of a query -/

theorem toReal_rate (h : E.Evaluable p) (hexp : E.ExpLaws) :
    (E.values p).rate.toReal = realRate p.exactly := by
  have hpos := h.rateBits_pos
  have hle := h.rateBits_le hexp
  rw [h.rate_eq hexp, Binary64.toReal_twoPow (by omega) (by omega), realRate, Int.cast_neg]
  rfl

theorem near_root (h : E.Evaluable p) (hexp : E.ExpLaws) :
    Near (2 * eps) (E.values p).rate.sqrt.toReal (√(realRate p.exactly)) := by
  obtain ⟨hfin, hpos, -⟩ := h.rate_spec hexp
  exact h.toReal_rate hexp ▸ near_sqrt hfin hpos

theorem toReal_one : (ofInt 1).toReal = 1 := by
  rw [Binary64.toReal_ofInt (by decide), Int.cast_one]

theorem toReal_twice (h : E.Evaluable p) : (ofInt 2 * p.m).toReal = 2 * p.m.toReal :=
  Binary64.toReal_two_mul h.twice_pos.1

/-- The factor of `alpha` that comes from `m`. The reciprocal may have few digits, but then it is
tiny next to one. -/
theorem near_factor (h : E.Evaluable p)
    (hfin : (ofInt 1 + ofInt 1 / (ofInt 2 * p.m)).isFinite = true) :
    Near (2 * eps) (ofInt 1 + ofInt 1 / (ofInt 2 * p.m)).toReal (1 + 1 / (2 * p.m.toReal)) := by
  have hm := h.toReal_m_pos
  obtain ⟨htwice, hpos⟩ := h.twice_pos
  have hrecip := (Binary64.isFinite_add hfin).2
  have hw : 0 < 1 / (2 * p.m.toReal) := by positivity
  have hdist := Binary64.toReal_div_sub_le hrecip htwice hpos
  rw [toReal_one, h.toReal_twice, abs_of_pos hw] at hdist
  have hsum : |(1 + (ofInt 1 / (ofInt 2 * p.m)).toReal) - (1 + 1 / (2 * p.m.toReal))|
      ≤ eps / 2 * (1 + 1 / (2 * p.m.toReal)) := by
    have hunit : unit ≤ eps := unit_le.trans (by rw [eps_eq]; norm_num)
    have heps := mul_pos (half_pos eps_pos) hw
    rw [add_sub_add_left_eq_sub]
    refine hdist.trans (max_le (by linarith) ?_)
    rw [two_mul_div_two_pow]
    linarith [eps_pos]
  have hnonneg := Binary64.toReal_nonneg (Binary64.zero_le_recip hpos) hrecip
  have hround := near_add (by rw [toReal_one]; norm_num) hnonneg hfin
  have hexact := Near.of_abs_sub_le (by positivity) (half_pos eps_pos).le
    (by rw [eps_eq]; norm_num) hsum
  rw [toReal_one] at hround
  exact (hround.trans hexact).mono (by linarith)

/-- It is not below the root of the rate. -/
theorem two_pow_mul_unit_le_alpha (h : E.Evaluable p) (hr : p.rateBits.toInt ≤ 681) {k : ℕ}
    (hk : k ≤ 700) : 2 ^ (k + 1) * unit ≤ realAlpha p.exactly p.m.toReal := by
  have hm := h.toReal_m_pos
  refine two_pow_mul_unit_le (Exact.realAlpha_pos hm) ?_
  have hfactor : 0 ≤ Real.logb 2 (1 + 1 / (2 * p.m.toReal)) :=
    Real.logb_nonneg one_lt_two (by linarith [show 0 < 1 / (2 * p.m.toReal) by positivity])
  have hbits : (p.rateBits.toInt : ℝ) ≤ 681 := by exact_mod_cast hr
  have hk' : (k : ℝ) ≤ 700 := by exact_mod_cast hk
  have hrate : (p.exactly.rateBits.toInt : ℝ) = p.rateBits.toInt := rfl
  rw [Exact.logb_realAlpha hm, hrate]
  push_cast
  linarith

theorem near_alpha (h : E.Evaluable p) (hexp : E.ExpLaws) (hpow : E.PowSpecial)
    (hr : p.rateBits.toInt ≤ 681) :
    Near (5 * eps) (E.values p).alpha.toReal (realAlpha p.exactly p.m.toReal) := by
  have hfin := h.isFinite_alpha hexp hpow
  rw [alpha_formula] at hfin ⊢
  have hlow := h.two_pow_mul_unit_le_alpha (k := 52) hr (by norm_num)
  have hprod := (h.near_root hexp).mul_rounded (h.near_factor (Binary64.isFinite_mul hfin).2) hfin
    (by rw [eps_eq]; norm_num) (by norm_num) hlow
  exact hprod.mono (by rw [eps_eq]; norm_num)

/-! ### The proximity error -/

theorem squareBits_pos (h : E.Evaluable p) : 2 ≤ p.codewordSquareBits := by
  obtain ⟨-, -, hsize, -⟩ := Params.validate_eq_ok_iff.mp h.valid
  unfold Params.codewordSquareBits
  omega

/-- Sizes are exact. -/
theorem near_size (hexp : E.ExpLaws) {n : ℤ} (hn : 0 ≤ n) (hfin : (E.size n).isFinite = true) :
    Near 0 (E.size n).toReal (2 ^ (n : ℝ)) := by
  refine near_exact (by positivity) ?_
  rw [size, hexp.eq_twoPow]
  exact Binary64.toReal_twoPow (by omega) (hexp.le_of_isFinite hfin)

theorem near_numerator (h : E.Evaluable p) (hexp : E.ExpLaws) :
    Near (120 * eps) (Scalar.powNat (p.m + ofHalves 1) 7 * E.size p.codewordSquareBits).toReal
      ((p.m.toReal + 1 / 2) ^ 7 * 2 ^ (p.codewordSquareBits : ℝ)) := by
  have hm := h.toReal_m_pos
  have hhalf : (ofHalves 1).toReal = 1 / 2 := by
    rw [Binary64.toReal_ofHalves (by decide), Int.cast_one]
  have hfin := h.inRange.proximity
  rw [proximity_formula] at hfin
  have hnum := (Binary64.isFinite_div hfin).1
  have hsum : (p.m + ofHalves 1).isFinite = true :=
    Binary64.isFinite_add_of_within (e := 0) h.m_pos.1 (Binary64.Within.ofHalves (by decide))
      (by decide)
  have hbase := near_add hm.le (by rw [hhalf]; norm_num) hsum
  rw [hhalf] at hbase
  have hpower := hbase.powNat (n := 7) (by linarith) (by decide) (by decide)
    (by rw [eps_eq]; norm_num) (Binary64.isFinite_mul hnum).1
  have hbits := h.squareBits_pos
  have hsize := near_size hexp (by omega) (Binary64.isFinite_mul hnum).2
  have hseven : (1 / 2 : ℝ) ^ 7 ≤ (p.m.toReal + 1 / 2) ^ 7 := by
    gcongr
    linarith
  have hone : (1 : ℝ) ≤ 2 ^ (p.codewordSquareBits : ℝ) :=
    Real.one_le_rpow one_le_two (by exact_mod_cast (by omega : 0 ≤ p.codewordSquareBits))
  have hlow : 2 ^ (52 + 1) * unit
      ≤ (p.m.toReal + 1 / 2) ^ 7 * 2 ^ (p.codewordSquareBits : ℝ) := by
    calc 2 ^ (52 + 1) * unit ≤ 2 ^ (52 + 1) * (1 / 2 ^ 100) := by
          gcongr
          exact unit_le
      _ ≤ (1 / 2) ^ 7 * 1 := by norm_num
      _ ≤ (p.m.toReal + 1 / 2) ^ 7 * 2 ^ (p.codewordSquareBits : ℝ) := by gcongr
  exact (hpower.mul_rounded hsize hnum (by rw [eps_eq]; norm_num) (by norm_num) hlow).mono
    (by rw [eps_eq]; norm_num)

/-- The power of the rate has a leading one, and all of its digits. -/
theorem near_power (h : E.Evaluable p) (hexp : E.ExpLaws) (hpow : E.PowLaws) (hacc : E.Accurate)
    (hr : p.rateBits.toInt ≤ 681) :
    Near (4 * eps) (E.pow (E.values p).rate (ofHalves 3)).toReal
      (realRate p.exactly ^ (3 / 2 : ℝ)) := by
  obtain ⟨hfin, hpos, -⟩ := h.rate_spec hexp
  have hthree : (ofHalves 3).isFinite = true :=
    Binary64.Within.isFinite (e := 1) (Binary64.Within.ofHalves (by decide)) (by decide)
  have herror := hacc.pow_sub_le _ _ hfin hpos hthree (h.power_spec hexp hpow).1
  rw [h.toReal_rate hexp, Binary64.toReal_ofHalves (by decide), Int.cast_ofNat] at herror
  have hrate : 0 < realRate p.exactly ^ (3 / 2 : ℝ) := Real.rpow_pos_of_pos Exact.realRate_pos _
  have hbits : (p.exactly.rateBits.toInt : ℝ) ≤ 681 := by exact_mod_cast hr
  refine near_of_accurate hrate.le (two_pow_mul_unit_le hrate ?_) herror
  rw [Exact.logb_realRate_rpow]
  push_cast
  linarith

theorem near_denominator (h : E.Evaluable p) (hexp : E.ExpLaws) (hpow : E.PowLaws)
    (hacc : E.Accurate) (hr : p.rateBits.toInt ≤ 681) :
    Near (5 * eps) (E.denominator p).toReal
      (2 * realRate p.exactly ^ (3 / 2 : ℝ) * 2 ^ (p.fieldSizeBits.toInt : ℝ)) := by
  obtain ⟨hden, hden'⟩ := h.denominator_spec hexp hpow
  have hfin := Binary64.isFinite_of_le_of_le (Binary64.le_of_lt hden) hden' rfl
    (Binary64.isFinite_twoPow (by decide) (by decide))
  rw [denominator_formula] at hfin ⊢
  obtain ⟨hdouble, hfield⟩ := Binary64.isFinite_mul hfin
  obtain ⟨-, -, -, -, -, -, hbits, -⟩ := Params.validate_eq_ok_iff.mp h.valid
  have hrate : 0 < realRate p.exactly ^ (3 / 2 : ℝ) := Real.rpow_pos_of_pos Exact.realRate_pos _
  have hpower : Near (4 * eps) (ofInt 2 * E.pow (E.values p).rate (ofHalves 3)).toReal
      (2 * realRate p.exactly ^ (3 / 2 : ℝ)) := by
    rw [Binary64.toReal_two_mul hdouble]
    exact ((Near.refl two_pos.le).mul (h.near_power hexp hpow hacc hr)).mono (by linarith)
  have hr' : (p.exactly.rateBits.toInt : ℝ) ≤ 681 := by exact_mod_cast hr
  have hbits' : (0 : ℝ) ≤ p.fieldSizeBits.toInt := by exact_mod_cast hbits.le
  have hlow : 2 ^ (52 + 1) * unit
      ≤ 2 * realRate p.exactly ^ (3 / 2 : ℝ) * 2 ^ (p.fieldSizeBits.toInt : ℝ) := by
    refine two_pow_mul_unit_le (by positivity) ?_
    rw [Real.logb_mul (by positivity) (by positivity), Real.logb_mul two_ne_zero hrate.ne',
      Exact.logb_realRate_rpow, Exact.logb_two_rpow, Real.logb_self_eq_one one_lt_two]
    push_cast
    linarith
  exact (hpower.mul_rounded (near_size hexp hbits.le hfield) hfin (by rw [eps_eq]; norm_num)
    (by norm_num) hlow).mono (by rw [eps_eq]; norm_num)

/-- It is far from the end of the format, if not by all of its digits. -/
theorem two_pow_mul_unit_le_proximity (h : E.Evaluable p) (hexp : E.ExpLaws) :
    2 ^ (45 + 1) * unit ≤ realProximity p.exactly p.m.toReal := by
  have hm := h.toReal_m_pos
  refine two_pow_mul_unit_le (Exact.realProximity_pos hm) ?_
  have hbase : -1 ≤ Real.logb 2 (p.m.toReal + 1 / 2) := by
    rw [Real.le_logb_iff_rpow_le one_lt_two (by linarith), Real.rpow_neg_one]
    linarith
  have hsquare : (2 : ℝ) ≤ p.exactly.codewordSquareBits := by exact_mod_cast h.squareBits_pos
  have hrate : (1 : ℝ) ≤ p.exactly.rateBits.toInt := by exact_mod_cast h.rateBits_pos
  have hfield : (p.exactly.fieldSizeBits.toInt : ℝ) ≤ 1023 := by
    exact_mod_cast hexp.le_of_isFinite h.inRange.field
  rw [Exact.logb_realProximity hm]
  push_cast
  linarith

theorem near_proximity (h : E.Evaluable p) (hexp : E.ExpLaws) (hpow : E.PowLaws)
    (hacc : E.Accurate) (hr : p.rateBits.toInt ≤ 681) :
    Near (512 * eps) (E.values p).proximity.toReal (realProximity p.exactly p.m.toReal) := by
  have hm := h.toReal_m_pos
  obtain ⟨hden, hden'⟩ := h.denominator_spec hexp hpow
  have hdenfin := Binary64.isFinite_of_le_of_le (Binary64.le_of_lt hden) hden' rfl
    (Binary64.isFinite_twoPow (by decide) (by decide))
  have hfin := h.inRange.proximity
  have hlow := h.two_pow_mul_unit_le_proximity hexp
  rw [proximity_formula] at hfin ⊢
  exact ((h.near_numerator hexp).div_rounded (h.near_denominator hexp hpow hacc hr) hden hdenfin
    hfin (by rw [eps_eq]; norm_num) (by norm_num) hlow).mono (by rw [eps_eq]; norm_num)

/-! ### The folding error -/

theorem one_le_head (h : E.Evaluable p) :
    1 ≤ (2 * p.m.toReal + 1) * (2 ^ (p.codewordSizeBits.toInt : ℝ) + 1) := by
  have hm := h.toReal_m_pos
  have hsize : (0 : ℝ) < 2 ^ (p.codewordSizeBits.toInt : ℝ) := by positivity
  nlinarith

theorem sqrt_realRate_le_one (h : E.Evaluable p) : √(realRate p.exactly) ≤ 1 := by
  have hbits : (0 : ℝ) ≤ p.exactly.rateBits.toInt := by exact_mod_cast h.rateBits_pos.le
  have hrate : realRate p.exactly ≤ 1 :=
    Real.rpow_le_one_of_one_le_of_nonpos one_le_two (by linarith)
  exact Real.sqrt_le_one.mpr hrate

theorem one_le_foldingHead (h : E.Evaluable p) :
    1 ≤ (2 * p.m.toReal + 1) * (2 ^ (p.codewordSizeBits.toInt : ℝ) + 1)
      / √(realRate p.exactly) := by
  rw [le_div_iff₀ Exact.sqrt_realRate_pos]
  linarith [h.sqrt_realRate_le_one, h.one_le_head]

/-- What stands before the sum of the arities. -/
theorem near_foldingHead (h : E.Evaluable p) (hexp : E.ExpLaws) :
    Near (6 * eps)
      ((ofInt 2 * p.m + ofInt 1) * (E.size p.codewordSizeBits.toInt + ofInt 1)
        / (E.values p).rate.sqrt).toReal
      ((2 * p.m.toReal + 1) * (2 ^ (p.codewordSizeBits.toInt : ℝ) + 1)
        / √(realRate p.exactly)) := by
  have hm := h.toReal_m_pos
  obtain ⟨-, -, hbits, -⟩ := Params.validate_eq_ok_iff.mp h.valid
  obtain ⟨hroot, hrootpos⟩ := h.root_spec hexp
  have hfin := h.inRange.folding
  rw [folding_formula] at hfin
  have hquot := (Binary64.isFinite_mul (Binary64.isFinite_div hfin).1).1
  have hprod := (Binary64.isFinite_div hquot).1
  obtain ⟨hlist, hsize⟩ := Binary64.isFinite_mul hprod
  have hone : 0 ≤ (ofInt 1).toReal := by
    rw [toReal_one]
    norm_num
  have hlist' := near_add (by rw [h.toReal_twice]; linarith) hone hlist
  rw [h.toReal_twice, toReal_one] at hlist'
  have hexact := near_size hexp hbits.le (Binary64.isFinite_add hsize).1
  have hsize' := (hexact.add_rounded (near_exact (by norm_num) toReal_one) hsize)
  have hprod' := hlist'.mul_rounded hsize' hprod (by rw [eps_eq]; norm_num) (by norm_num)
    (two_pow_mul_unit_le_one.trans h.one_le_head)
  exact (hprod'.div_rounded (h.near_root hexp) hrootpos hroot hquot (by rw [eps_eq]; norm_num)
    (by norm_num) (two_pow_mul_unit_le_one.trans h.one_le_foldingHead)).mono
    (by rw [eps_eq]; norm_num)

theorem near_aritySum (h : E.Evaluable p) (hexp : E.ExpLaws) :
    Near (p.arityBits.length * eps) (E.aritySum p).toReal (realAritySum p.exactly) := by
  have hfin := h.inRange.aritySum
  rw [aritySum_formula] at hfin ⊢
  have hterms : ∀ a ∈ p.arityBits, (E.size a.toNat).isFinite = true := by
    intro a ha
    exact (@Scalar.isFinite_foldl_add _ E.scalar _ _ _ hfin).2.1 _ (List.mem_map_of_mem ha)
  have hexact : ∀ a ∈ p.arityBits, (E.size a.toNat).toReal = 2 ^ (a.toNat : ℝ) := by
    intro a ha
    have hle := hexp.le_of_isFinite (hterms a ha)
    rw [size, hexp.eq_twoPow, Binary64.toReal_twoPow (by omega) hle, Int.cast_natCast]
  have hys : ∀ y ∈ p.arityBits.map fun a => E.size a.toNat, 0 ≤ y.toReal := by
    intro y hy
    obtain ⟨a, ha, rfl⟩ := List.mem_map.mp hy
    rw [hexact a ha]
    positivity
  have hsum : ((p.arityBits.map fun a => E.size a.toNat).map toReal).sum
      = realAritySum p.exactly := by
    rw [List.map_map]
    exact congrArg List.sum (List.map_congr_left hexact)
  have hnear := near_sum hys hfin
  rwa [hsum, List.length_map] at hnear

theorem one_le_realAritySum {q : Params EReal} (hne : q.arityBits ≠ []) : 1 ≤ realAritySum q := by
  obtain ⟨a, ha⟩ := List.exists_mem_of_ne_nil _ hne
  have hall : ∀ w ∈ q.arityBits.map fun a => (2 : ℝ) ^ (a.toNat : ℝ), 0 ≤ w := by
    intro w hw
    obtain ⟨b, -, rfl⟩ := List.mem_map.mp hw
    positivity
  calc (1 : ℝ) ≤ 2 ^ (a.toNat : ℝ) := Real.one_le_rpow one_le_two (Nat.cast_nonneg _)
    _ ≤ realAritySum q := List.single_le_sum hall _ (List.mem_map_of_mem ha)

/-- Without a round there is no folding error. -/
theorem folding_of_nil (h : E.Evaluable p) (hnil : p.arityBits = []) :
    (E.values p).folding.toReal = 0 := by
  have hfin := h.inRange.folding
  rw [folding_formula] at hfin ⊢
  have hprod := (Binary64.isFinite_div hfin).1
  have hsum : E.aritySum p = zero true := by
    rw [aritySum_formula, hnil, Binary64.ofInt_zero]
    rfl
  rw [hsum] at hfin hprod ⊢
  have hcomm := Binary64.mul_comm (y := zero true) (Binary64.isFinite_mul hprod).1 rfl
  rw [hcomm] at hfin hprod ⊢
  obtain ⟨s, hs⟩ := Binary64.zero_mul hprod
  rw [hs] at hfin ⊢
  obtain ⟨t, ht⟩ := Binary64.zero_div hfin
  rw [ht, Binary64.toReal_zero]

theorem near_folding (h : E.Evaluable p) (hexp : E.ExpLaws) (hlen : p.arityBits.length ≤ 65536) :
    Near (66000 * eps) (E.values p).folding.toReal (realFolding p.exactly p.m.toReal) := by
  by_cases hne : p.arityBits = []
  · rw [h.folding_of_nil hne, Exact.realFolding_of_nil (p := p.exactly) hne]
    exact (Near.refl le_rfl).mono (mul_nonneg (by norm_num) eps_pos.le)
  have hfin := h.inRange.folding
  obtain ⟨hfield, -⟩ := h.field_spec hexp
  obtain ⟨-, -, -, -, -, -, hbits, -⟩ := Params.validate_eq_ok_iff.mp h.valid
  have hfieldfin := h.inRange.field
  have hfieldle := hexp.le_of_isFinite hfieldfin
  rw [folding_formula] at hfin ⊢
  have hprod := (Binary64.isFinite_div hfin).1
  have hcount : (p.arityBits.length : ℝ) ≤ 65536 := by exact_mod_cast hlen
  have harity := (h.near_aritySum hexp).mono (mul_le_mul_of_nonneg_right hcount eps_pos.le)
  have hideal := one_le_mul_of_one_le_of_one_le h.one_le_foldingHead
    (one_le_realAritySum (q := p.exactly) hne)
  have hprod' := (h.near_foldingHead hexp).mul_rounded harity hprod (by rw [eps_eq]; norm_num)
    (by norm_num) (two_pow_mul_unit_le_one.trans hideal)
  have hlow : 2 ^ (44 + 1) * unit ≤ realFolding p.exactly p.m.toReal := by
    have hfieldle' : (p.exactly.fieldSizeBits.toInt : ℝ) ≤ 1023 := by exact_mod_cast hfieldle
    have hlog : (44 + 1 : ℕ) - 1074 ≤ Real.logb 2 (2 ^ (p.fieldSizeBits.toInt : ℝ))⁻¹ := by
      rw [Real.logb_inv, Exact.logb_two_rpow]
      push_cast
      linarith [show (p.exactly.fieldSizeBits.toInt : ℝ) = p.fieldSizeBits.toInt from rfl]
    refine (two_pow_mul_unit_le (by positivity) hlog).trans ?_
    rw [realFolding, div_eq_mul_inv]
    exact le_mul_of_one_le_left (by positivity) hideal
  exact (hprod'.div_rounded (near_size hexp hbits.le hfieldfin) hfield hfieldfin hfin
    (by rw [eps_eq]; norm_num) (by norm_num) hlow).mono (by rw [eps_eq]; norm_num)

/-! ### The query error -/

theorem query_eq (h : E.Evaluable p) (hq : p.numQueries.toNat ≤ 1024) :
    0 < p.numQueries.toNat ∧
      (E.values p).query = Scalar.powNat (E.values p).alpha p.numQueries.toNat := by
  refine ⟨?_, queryPower_eq_powNat (by omega)⟩
  rw [Nat.pos_iff_ne_zero]
  exact fun h0 => h.queries_pos (UInt64.toNat_inj.mp h0)

theorem near_query (h : E.Evaluable p) (hexp : E.ExpLaws) (hpow : E.PowSpecial)
    (hr : p.rateBits.toInt ≤ 681) (hq : p.numQueries.toNat ≤ 1024)
    (ha : 1 / 2 ≤ realAlpha p.exactly p.m.toReal) :
    Near (2 ^ 15 * eps) (E.values p).query.toReal
      (realAlpha p.exactly p.m.toReal ^ p.numQueries.toNat) := by
  obtain ⟨hpos, hquery⟩ := h.query_eq hq
  have hcount : (p.numQueries.toNat : ℝ) ≤ 1024 := by exact_mod_cast hq
  have hfin := h.inRange.query
  rw [hquery] at hfin ⊢
  refine ((h.near_alpha hexp hpow hr).powNat ha hpos hq (by rw [eps_eq]; norm_num) hfin).mono ?_
  rw [eps_eq]
  linarith

theorem nearUpTo_query (h : E.Evaluable p) (hexp : E.ExpLaws) (hpow : E.PowSpecial)
    (hr : p.rateBits.toInt ≤ 681) (hq : p.numQueries.toNat ≤ 1024)
    (ha : realAlpha p.exactly p.m.toReal ≤ 1 / 2) :
    NearUpTo (2 ^ 15 * eps) (2048 * unit) (E.values p).query.toReal
      (realAlpha p.exactly p.m.toReal ^ p.numQueries.toNat) := by
  obtain ⟨hpos, hquery⟩ := h.query_eq hq
  have hcount : (p.numQueries.toNat : ℝ) ≤ 1024 := by exact_mod_cast hq
  have hfin := h.inRange.query
  have heps := eps_pos
  have hunit := Binary64.unit_pos
  rw [hquery] at hfin ⊢
  refine (NearUpTo.powNat (h.near_alpha hexp hpow hr) ha (by positivity) hpos hq
    (by rw [eps_eq]; norm_num) hfin).mono ?_ ?_
  · nlinarith
  · nlinarith

/-! ### The bound -/

theorem exactTotal_pos (h : E.Evaluable p) : 0 < p.exactTotal := by
  have hm := h.toReal_m_pos
  have hproximity := Exact.realProximity_pos (p := p.exactly) hm
  have hfolding := Exact.realFolding_nonneg (p := p.exactly) hm
  have halpha := Exact.realAlpha_pos (p := p.exactly) hm
  rw [Params.exactTotal]
  positivity

/-- **The error of the bound.** A small query error may be off by half its size or more at the end
of the format; the proximity error next to it is larger by 34 binary digits. -/
theorem near_total (h : E.Evaluable p) (hexp : E.ExpLaws) (hpow : E.PowLaws) (hacc : E.Accurate)
    (hp : p.Moderate) {v : Binary64}
    (hv : v = (E.values p).proximity + (E.values p).folding + (E.values p).query)
    (hfin : v.isFinite = true) : Near (400000 * eps) v.toReal p.exactTotal := by
  have hm := h.toReal_m_pos
  have heps := eps_pos
  rw [hv] at hfin ⊢
  have hhead := (h.near_proximity hexp hpow hacc hp.rateBits_le).mono
    (show 512 * eps ≤ 66000 * eps by linarith)
  have hsum := hhead.add_rounded (h.near_folding hexp hp.length_le) (Binary64.isFinite_add hfin).1
  rcases le_total (1 / 2) (realAlpha p.exactly p.m.toReal) with ha | ha
  · have hquery := (h.near_query hexp hpow.toPowSpecial hp.rateBits_le hp.numQueries_le ha).mono
      (show 2 ^ 15 * eps ≤ 66000 * eps + eps by linarith)
    exact (hsum.add_rounded hquery hfin).mono (by linarith)
  · have hquery := (h.nearUpTo_query hexp hpow.toPowSpecial hp.rateBits_le hp.numQueries_le ha).mono
      (show 2 ^ 15 * eps ≤ 66000 * eps + eps by linarith) le_rfl
    have hlarge : 0 + 2048 * unit ≤ 1 / 2 ^ 35 * p.exactTotal := by
      have hproximity := h.two_pow_mul_unit_le_proximity hexp
      have hfolding := Exact.realFolding_nonneg (p := p.exactly) hm
      have hpower := pow_nonneg (Exact.realAlpha_pos (p := p.exactly) hm).le p.numQueries.toNat
      calc 0 + 2048 * unit = 1 / 2 ^ 35 * (2 ^ (45 + 1) * unit) := by ring
        _ ≤ 1 / 2 ^ 35 * p.exactTotal := by
          rw [Params.exactTotal]
          gcongr
          linarith
    have hexact := (hsum.upTo.add hquery).near (by linarith) (by positivity) (by norm_num) hlarge
    refine ((near_add hsum.nonneg hquery.nonneg hfin).trans hexact).mono ?_
    rw [eps_eq]
    norm_num

end Elementary.Evaluable

end FriBound
