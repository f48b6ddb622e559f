import FriBound.Proofs.Monotone

/-!
# What distance costs

A larger `m` and a smaller rate take the proximity limit further away from the code. A word beyond
the limit passes a query less often then, and the query error falls. The price is paid in the other
two errors, which grow. The evaluation follows this in every digit: no rounding turns one of the
four comparisons around.

The rate need not be below one. It may be infinite in rounded arithmetic, and `alpha` with it, as
long as no query asks for a power of it. What is divided by in the folding error is the root of the
rate, so a rate that vanishes leaves no terms to compare.

## Main definitions

* `Params.Farther` — the proximity limit of one instance is beyond that of another

## Main results

* `Elementary.trade_off` — the terms of two such instances
-/

namespace FriBound

/-- The proximity limit of `p'` is not nearer than that of `p`: its `m` is not smaller and its rate
not larger. Everything else that enters the arithmetic is the same. -/
structure Params.Farther (p p' : Params Binary64) : Prop where
  m_le : p.m ≤ p'.m
  rateBits_le : p.rateBits ≤ p'.rateBits
  codewordSizeBits_eq : p.codewordSizeBits = p'.codewordSizeBits
  arityBits_eq : p.arityBits = p'.arityBits
  fieldSizeBits_eq : p.fieldSizeBits = p'.fieldSizeBits
  numQueries_eq : p.numQueries = p'.numQueries

namespace Params.Farther

open Binary64 Elementary

variable {E : Elementary} {p p' : Params Binary64}

/-! ### What is the same -/

theorem aritySum_eq (h : p.Farther p') : E.aritySum p = E.aritySum p' := by
  rw [aritySum_formula, aritySum_formula, h.arityBits_eq]

theorem codewordSquareBits_eq (h : p.Farther p') :
    p.codewordSquareBits = p'.codewordSquareBits := by
  rw [Params.codewordSquareBits, Params.codewordSquareBits, h.codewordSizeBits_eq]

/-! ### The rate -/

theorem rateBits_toInt_le (h : p.Farther p') : p.rateBits.toInt ≤ p'.rateBits.toInt :=
  Int32.le_iff_toInt_le.mp h.rateBits_le

theorem rate_le (h : p.Farther p') (hrate : E.RateLaws) :
    (E.values p').rate ≤ (E.values p).rate :=
  hrate.exp2_mono _ _ h.rateBits_toInt_le

/-- The denominator of the proximity error is not larger. The power of the rate in it may be
infinite, or zero, on both sides. -/
theorem denominator_le (h : p.Farther p') (hrate : E.RateLaws)
    (hfolding : (E.values p').folding.isFinite = true)
    (hfield : (E.size p'.fieldSizeBits.toInt).isFinite = true) :
    E.denominator p' ≤ E.denominator p := by
  have hpow0 := hrate.pow_nonneg p'.rateBits.toInt
  have hpow := hrate.pow_mono _ _ h.rateBits_toInt_le
  have hdouble0 := (zero_le_mul hpow0 isFinite_two ofInt_two_pos).2
  have hdouble := (mul_le_mul_of_nonneg hpow0 hpow isFinite_two ofInt_two_pos).2
  rw [denominator_formula, denominator_formula, h.fieldSizeBits_eq]
  exact (mul_le_mul_of_nonneg hdouble0 hdouble hfield (field_pos hrate.exp2_nonneg hfolding)).1

/-! ### The chance of a query -/

/-- The factor of `alpha` that comes from `m`. -/
theorem factor_le (h : p.Farther p') (hm : (zero false).lt p.m = true) (hmfin : p.m.isFinite = true)
    (hmfin' : p'.m.isFinite = true) :
    (zero false).lt (ofInt 1 + ofInt 1 / (ofInt 2 * p'.m)) = true ∧
      ofInt 1 + ofInt 1 / (ofInt 2 * p'.m) ≤ ofInt 1 + ofInt 1 / (ofInt 2 * p.m) := by
  have htwice := (mul_le_mul_of_nonneg (le_of_lt hm) h.m_le isFinite_two ofInt_two_pos).2
  obtain ⟨htwice0, -⟩ := twice_spec hmfin hm
  obtain ⟨-, hrecip0⟩ := twice_spec hmfin' (lt_of_lt_of_le hm h.m_le)
  have hrecip := div_le_div_left (le_of_lt one_pos) isFinite_one htwice0 htwice
  exact ⟨one_add_pos hrecip0, add_le_add_left hrecip hrecip0 isFinite_one⟩

/-- Both factors of `alpha` fall, and each of them may be infinite. -/
theorem alpha_le (h : p.Farther p') (hrate : E.RateLaws) (hm : (zero false).lt p.m = true)
    (hmfin : p.m.isFinite = true) (hmfin' : p'.m.isFinite = true)
    (hfolding : (E.values p').folding.isFinite = true) :
    zero false ≤ (E.values p').alpha ∧ (E.values p').alpha ≤ (E.values p).alpha := by
  obtain ⟨hrate0, hroot0⟩ := rate_pos hfolding
  obtain ⟨hfactor0, hfactor⟩ := h.factor_le hm hmfin hmfin'
  rw [alpha_formula, alpha_formula]
  exact ⟨zero_le_mul_of_pos hroot0 hfactor0,
    mul_le_mul_of_pos hroot0 hfactor0 (sqrt_le_sqrt hrate0 (h.rate_le hrate)) hfactor⟩

end Params.Farther

/-! ### The terms -/

namespace Elementary

open Binary64

variable {E : Elementary} {p p' : Params Binary64} {t t' : Terms Binary64}

/-- **What distance costs.** If the terms exist for two instances, then those of the one with the
larger `m` and the smaller rate have a chance `alpha` and a query error that are not larger, and a
proximity and a folding error that are not smaller. -/
theorem trade_off (hrate : E.RateLaws) (h : p.Farther p') (hm : (zero false).lt p.m = true)
    (hq : p.numQueries.toNat ≤ 2 ^ 31 - 1) (ht : E.terms p = .ok t) (ht' : E.terms p' = .ok t') :
    t'.alpha ≤ t.alpha ∧ t'.query ≤ t.query ∧
      t.proximity ≤ t'.proximity ∧ t.folding ≤ t'.folding := by
  obtain ⟨hmfin, -, hguarded, rfl⟩ := terms_eq_ok_iff_guarded.mp ht
  obtain ⟨hmfin', -, hguarded', rfl⟩ := terms_eq_ok_iff_guarded.mp ht'
  have hquery := (guarded_iff.mp hguarded).query
  obtain ⟨hsize, hsquare, hfield, hsum, hproximity, hfolding, -⟩ := guarded_iff.mp hguarded'
  obtain ⟨halpha0, halpha⟩ := h.alpha_le hrate hm hmfin hmfin' hfolding
  refine ⟨halpha, ?query, ?proximity, ?folding⟩
  case query =>
    -- `alpha` need not be below one, so the squarings are compared step by step.
    have hlt : p.numQueries.toNat < 2 ^ 31 := by omega
    have hpow : (E.queryPower (E.values p).alpha p.numQueries).isFinite = true := hquery
    show E.queryPower (E.values p').alpha p'.numQueries
      ≤ E.queryPower (E.values p).alpha p.numQueries
    rw [queryPower_eq_powNat hlt] at hpow
    rw [← h.numQueries_eq, queryPower_eq_powNat hlt, queryPower_eq_powNat hlt]
    exact (Dominated.powNat halpha0 halpha hpow).le
  case proximity =>
    have hsquares := Dominated.refl (hrate.exp2_nonneg _) hsquare
    have hden := denominator_pos hrate.exp2_nonneg (hrate.pow_nonneg _) hguarded'
    exact (dominated_proximity hm h.m_le (h.codewordSquareBits_eq ▸ hsquares) hden
      (h.denominator_le hrate hfolding hfield) hproximity).le
  case folding =>
    have hsizes := Dominated.refl (hrate.exp2_nonneg _) hsize
    have hsum0 : zero false ≤ E.aritySum p' := by
      rw [aritySum_formula] at hsum ⊢
      exact foldl_add_nonneg zero_le_neg_zero (sizes_nonneg hrate.exp2_nonneg _) hsum
    have hsums : Dominated (E.aritySum p) (E.aritySum p') := by
      rw [h.aritySum_eq]
      exact .refl hsum0 hsum
    exact (dominated_folding hm h.m_le hrate.exp2_nonneg (h.codewordSizeBits_eq ▸ hsizes)
      (sqrt_le_sqrt (rate_pos hfolding).1 (h.rate_le hrate)) hsums h.fieldSizeBits_eq hfolding).le

/-- Twice the `m` and a quarter of the rate. -/
theorem trade_off_quarterCode :
    ∃ t t', whole.terms quarterCode = .ok t ∧
      whole.terms { quarterCode with m := ofInt 2, rateBits := 4 } = .ok t' ∧
      t'.alpha ≤ t.alpha ∧ t'.query ≤ t.query ∧
      t.proximity ≤ t'.proximity ∧ t.folding ≤ t'.folding := by
  have hm : ∀ s, ofInt 2 ≠ zero s := by decide +kernel
  have hterms' : whole.terms { quarterCode with m := ofInt 2, rateBits := 4 } = .ok _ :=
    terms_eq_ok_iff_guarded.mpr ⟨by decide +kernel, not_exists.mpr hm, by decide +kernel, rfl⟩
  have hfarther : quarterCode.Farther { quarterCode with m := ofInt 2, rateBits := 4 } :=
    ⟨ofInt_le_ofInt (by decide), by decide, rfl, rfl, rfl, rfl⟩
  exact ⟨_, _, terms_quarterCode, hterms', trade_off rateLaws_whole hfarther Binary64.one_pos
    (by decide) terms_quarterCode hterms'⟩

end Elementary

end FriBound
