import FriBound.Proofs.Exact

/-!
# The bound and its logarithm, read exactly

The bound is written twice: as a sum of terms, and in logarithms, where no size is ever formed. Over
the extended reals the two must be one formula, and this module says how far they are.

They differ in one place only. The square of the domain size has the exponent
`2 * codewordSizeBits`; the terms keep that exponent within its word (`codewordSquareBits`), the
logarithms do not. So the folding and the query error agree for all parameters with a positive `m`,
and the proximity error agrees up to the factor `2 ^ clipped`, which is one unless the doubled
exponent leaves the word.

## Main results

* `Exact.terms_eq`, `Exact.logBound_eq` — both evaluations succeed, and their values
* `Exact.logBound_exact` — the logarithms are those of the terms and of their sum, the clipped
  exponent apart
-/

namespace FriBound

namespace Exact

open Params

/-! ### The parts of the bound -/

variable {p : Params EReal} {m : ℝ}

theorem realRate_pos : 0 < realRate p := Real.rpow_pos_of_pos two_pos _

theorem sqrt_realRate_pos : 0 < √(realRate p) := Real.sqrt_pos.mpr realRate_pos

theorem realAlpha_pos (h0 : 0 < m) : 0 < realAlpha p m :=
  mul_pos sqrt_realRate_pos (by positivity)

theorem realAritySum_nonneg : 0 ≤ realAritySum p := by
  apply List.sum_nonneg
  intro w hw
  obtain ⟨a, -, rfl⟩ := List.mem_map.mp hw
  positivity

theorem realProximity_pos (h0 : 0 < m) : 0 < realProximity p m := by
  have := realRate_pos (p := p)
  rw [realProximity]
  positivity

theorem realFolding_nonneg (h0 : 0 < m) : 0 ≤ realFolding p m := by
  have := sqrt_realRate_pos (p := p)
  have := realAritySum_nonneg (p := p)
  rw [realFolding]
  positivity

/-! ### The terms

No part is infinite, so every check of the evaluation passes. -/

theorem finite_coe (what : Quantity) (x : ℝ) : finite what (x : EReal) = .ok (x : EReal) :=
  if_pos (isFinite_coe x)

theorem rate_eq : p.rate = (realRate p : EReal) := by
  rw [Params.rate, ofInt_eq]
  rfl

theorem not_same_zero (hm : p.m = m) (h0 : m ≠ 0) :
    Scalar.same p.m (Scalar.ofInt 0) = false := by
  rw [hm, ofInt_eq]
  simpa [Scalar.same] using h0

theorem alpha_eq (hm : p.m = m) (h0 : m ≠ 0) : p.alpha = .ok (realAlpha p m : EReal) := by
  have hval : Scalar.sqrt p.rate * (Scalar.ofInt 1 + Scalar.ofInt 1 / (Scalar.ofInt 2 * p.m))
      = (realAlpha p m : EReal) := by
    rw [hm, rate_eq, ofInt_eq, ofInt_eq, ← EReal.coe_mul, ← EReal.coe_div, ← EReal.coe_add,
      Int.cast_one, Int.cast_ofNat, realAlpha, EReal.coe_mul, ← sqrt_coe]
    rfl
  rw [Params.alpha, not_same_zero hm h0, if_neg Bool.false_ne_true, hval, hm, isFinite_coe,
    if_pos rfl]

theorem aritySum_eq : p.aritySum = (realAritySum p : EReal) := by
  rw [realAritySum, ← sum_coe, List.map_map]
  rfl

theorem proximity_eq (hm : p.m = m) :
    Scalar.powNat (p.m + Scalar.ofHalves 1) 7 * Scalar.exp2 (Scalar.ofInt p.codewordSquareBits)
        / (Scalar.ofInt 2 * Scalar.pow p.rate (Scalar.ofHalves 3)
          * Scalar.exp2 (Scalar.ofInt p.fieldSizeBits.toInt))
      = (realProximity p m : EReal) := by
  have hden : (Scalar.ofInt 2 * Scalar.pow p.rate (Scalar.ofHalves 3)
      * Scalar.exp2 (Scalar.ofInt p.fieldSizeBits.toInt) : EReal)
      = ((2 * realRate p ^ (3 / 2 : ℝ) * 2 ^ (p.fieldSizeBits.toInt : ℝ) : ℝ) : EReal) := by
    rw [rate_eq, ofInt_eq, ofHalves_eq, Int.cast_ofNat, Int.cast_ofNat, EReal.coe_mul,
      EReal.coe_mul]
    rfl
  have hnum : Scalar.powNat (p.m + Scalar.ofHalves 1) 7
      * Scalar.exp2 (Scalar.ofInt p.codewordSquareBits)
      = (((m + 1 / 2) ^ 7 * 2 ^ (p.codewordSquareBits : ℝ) : ℝ) : EReal) := by
    rw [hm, ofHalves_eq, ← EReal.coe_add, powNat_coe, EReal.coe_mul, Int.cast_one]
    rfl
  rw [hden, hnum, ← EReal.coe_div]
  rfl

theorem folding_eq (hm : p.m = m) :
    (Scalar.ofInt 2 * p.m + Scalar.ofInt 1)
        * (Scalar.exp2 (Scalar.ofInt p.codewordSizeBits.toInt) + Scalar.ofInt 1)
        / Scalar.sqrt p.rate * p.aritySum / Scalar.exp2 (Scalar.ofInt p.fieldSizeBits.toInt)
      = (realFolding p m : EReal) := by
  rw [hm, rate_eq, aritySum_eq, ofInt_eq 2, ofInt_eq 1, Int.cast_ofNat, Int.cast_one, realFolding,
    EReal.coe_div, EReal.coe_mul, EReal.coe_div, EReal.coe_mul, EReal.coe_add, EReal.coe_add,
    EReal.coe_mul]
  rfl

/-- Both ways of raising to a number of queries are the power. -/
theorem queryPower_eq (x : ℝ) (q : UInt64) :
    queryPower (x : EReal) q = ((x ^ q.toNat : ℝ) : EReal) := by
  rw [queryPower]
  split
  · exact powNat_coe x q.toNat
  · rw [← Real.rpow_natCast]
    exact pow_coe x q.toNat

theorem terms_eq (hm : p.m = m) (h0 : m ≠ 0) :
    p.terms = .ok ⟨realRate p, realAlpha p m, realProximity p m, realFolding p m,
      (realAlpha p m ^ p.numQueries.toNat : ℝ)⟩ := by
  have hpow : ∀ (what : Quantity) (n : ℤ),
      finite what (Scalar.exp2 (Scalar.ofInt n) : EReal) = .ok (Scalar.exp2 (Scalar.ofInt n)) :=
    fun what n => finite_coe what (2 ^ (n : ℝ))
  have hsum : finite .aritySum p.aritySum = .ok p.aritySum := by
    rw [aritySum_eq, finite_coe]
  simp only [Params.terms, Params.termsAt, alpha_eq hm h0, hpow, hsum, bind, Except.bind, pure,
    Except.pure]
  rw [proximity_eq hm, folding_eq hm, queryPower_eq, finite_coe, finite_coe, finite_coe, rate_eq]

/-! ### Logarithms of the parts -/

theorem clipped_eq_zero_iff :
    clipped p = 0 ↔ -2 ^ 30 ≤ p.codewordSizeBits.toInt ∧ p.codewordSizeBits.toInt < 2 ^ 30 := by
  rw [clipped, codewordSquareBits]
  omega

theorem two_rpow_clipped_eq_one_iff : (2 : ℝ) ^ (clipped p : ℝ) = 1 ↔ clipped p = 0 := by
  constructor
  · intro h
    have hlog : (clipped p : ℝ) = 0 := by rw [← logb_two_rpow (clipped p : ℝ), h, Real.logb_one]
    exact_mod_cast hlog
  · intro h
    rw [h, Int.cast_zero, Real.rpow_zero]

theorem logb_realRate : Real.logb 2 (realRate p) = -p.rateBits.toInt := logb_two_rpow _

theorem logb_realRate_rpow (y : ℝ) :
    Real.logb 2 (realRate p ^ y) = y * -p.rateBits.toInt := by
  rw [Real.logb_rpow_eq_mul_logb_of_pos realRate_pos, logb_realRate]

theorem logb_sqrt_realRate : Real.logb 2 √(realRate p) = 1 / 2 * -p.rateBits.toInt := by
  rw [Real.sqrt_eq_rpow, logb_realRate_rpow]

theorem logb_realAlpha (h0 : 0 < m) :
    Real.logb 2 (realAlpha p m) = Real.logb 2 (1 + 1 / (2 * m)) - 1 / 2 * p.rateBits.toInt := by
  rw [realAlpha, Real.logb_mul sqrt_realRate_pos.ne' (by positivity), logb_sqrt_realRate]
  ring

theorem logb_realProximity (h0 : 0 < m) :
    Real.logb 2 (realProximity p m) = 7 * Real.logb 2 (m + 1 / 2) + p.codewordSquareBits - 1
      + 3 / 2 * p.rateBits.toInt - p.fieldSizeBits.toInt := by
  have hρ : 0 < realRate p := realRate_pos
  have hpow : ∀ n : ℤ, (2 : ℝ) ^ (n : ℝ) ≠ 0 := by
    intro n
    exact (Real.rpow_pos_of_pos two_pos _).ne'
  rw [realProximity, Real.logb_div (by positivity) (by positivity),
    Real.logb_mul (by positivity) (hpow _), Real.logb_mul (by positivity) (hpow _),
    Real.logb_mul two_ne_zero (by positivity), Real.logb_pow, logb_realRate_rpow,
    Real.logb_self_eq_one one_lt_two, logb_two_rpow, logb_two_rpow]
  push_cast
  ring

/-- The logarithm of the folding error in its parts. Without a round both sides are `⊥`. -/
theorem log2_realFolding (h0 : 0 < m) :
    log2 (realFolding p m : EReal) = (Real.logb 2 (2 * m + 1) : EReal)
      + (Real.logb 2 (2 ^ (p.codewordSizeBits.toInt : ℝ) + 1) : ℝ)
      + ((1 / 2 * p.rateBits.toInt : ℝ) : EReal)
      + log2 (realAritySum p : ℝ) - (p.fieldSizeBits.toInt : ℝ) := by
  have hρ : 0 < √(realRate p) := sqrt_realRate_pos
  have hsplit : realFolding p m = (2 * m + 1) * (2 ^ (p.codewordSizeBits.toInt : ℝ) + 1)
      / √(realRate p) / 2 ^ (p.fieldSizeBits.toInt : ℝ) * realAritySum p := by
    rw [realFolding]
    ring
  have hlog : Real.logb 2 ((2 * m + 1) * (2 ^ (p.codewordSizeBits.toInt : ℝ) + 1)
      / √(realRate p) / 2 ^ (p.fieldSizeBits.toInt : ℝ))
      = Real.logb 2 (2 * m + 1) + Real.logb 2 (2 ^ (p.codewordSizeBits.toInt : ℝ) + 1)
        + 1 / 2 * p.rateBits.toInt - p.fieldSizeBits.toInt := by
    rw [Real.logb_div (by positivity) (by positivity), Real.logb_div (by positivity) hρ.ne',
      Real.logb_mul (by positivity) (by positivity), logb_sqrt_realRate, logb_two_rpow]
    ring
  rw [hsplit, log2_coe_mul (by positivity), hlog]
  by_cases hS : realAritySum p = 0
  · rw [hS, log2_zero]
    simp
  · rw [log2_coe hS, ← EReal.coe_add, ← EReal.coe_add, ← EReal.coe_add, ← EReal.coe_add,
      ← EReal.coe_sub]
    refine congrArg _ ?_
    ring

/-! ### The logarithmic terms -/

theorem log2SumExp2_size (c : ℤ) :
    Scalar.log2SumExp2 [(Scalar.ofInt c : EReal), Scalar.ofInt 0]
      = (Real.logb 2 (2 ^ (c : ℝ) + 1) : ℝ) := by
  have hne : ∀ x ∈ [(Scalar.ofInt c : EReal), Scalar.ofInt 0], x ≠ ⊤ := by
    simp [ofInt_eq]
  have hpos : (2 : ℝ) ^ (c : ℝ) + 1 ≠ 0 := by positivity
  rw [log2SumExp2_eq hne, ← log2_coe hpos]
  simp only [List.map_cons, List.map_nil, List.sum_cons, List.sum_nil, ofInt_eq, weight_coe]
  rw [Int.cast_zero, Real.rpow_zero, add_zero]

theorem log2SumExp2_arityBits :
    Scalar.log2SumExp2 (p.arityBits.map fun a => Scalar.ofInt a.toNat)
      = log2 (realAritySum p : ℝ) := by
  rw [log2SumExp2_eq, List.map_map]
  · rfl
  · intro x hx
    obtain ⟨a, -, rfl⟩ := List.mem_map.mp hx
    exact EReal.coe_ne_top _

theorem logTerms_proximity (hm : p.m = m) (h0 : 0 < m) :
    p.logTerms.proximity = ((Real.logb 2 (realProximity p m) + clipped p : ℝ) : EReal) := by
  have hlog : Scalar.log2 (p.m + Scalar.ofHalves 1) = (Real.logb 2 (m + 1 / 2) : EReal) := by
    rw [hm, ofHalves_eq, ← EReal.coe_add, Int.cast_one]
    exact log2_coe (by positivity)
  simp only [Params.logTerms]
  rw [hlog]
  simp only [ofInt_eq, ofHalves_eq, ← EReal.coe_mul, ← EReal.coe_add, ← EReal.coe_sub]
  refine congrArg _ ?_
  rw [logb_realProximity h0, clipped]
  push_cast
  ring

theorem logTerms_folding (hm : p.m = m) (h0 : 0 < m) :
    p.logTerms.folding = log2 (realFolding p m : EReal) := by
  have hlog : Scalar.log2 (Scalar.ofInt 2 * p.m + Scalar.ofInt 1)
      = (Real.logb 2 (2 * m + 1) : EReal) := by
    rw [hm, ofInt_eq, ofInt_eq, ← EReal.coe_mul, ← EReal.coe_add, Int.cast_ofNat, Int.cast_one]
    exact log2_coe (by positivity)
  have hhalf : (Scalar.ofHalves 1 * Scalar.ofInt p.rateBits.toInt : EReal)
      = ((1 / 2 * p.rateBits.toInt : ℝ) : EReal) := by
    rw [ofHalves_eq, ofInt_eq, ← EReal.coe_mul, Int.cast_one]
  rw [log2_realFolding h0]
  simp only [Params.logTerms]
  rw [hlog, hhalf, log2SumExp2_size, log2SumExp2_arityBits, ofInt_eq]

theorem logAlpha_eq (hm : p.m = m) (h0 : 0 < m) :
    p.logAlpha = (Real.logb 2 (realAlpha p m) : EReal) := by
  have hlog : Scalar.log2 (Scalar.ofInt 1 + Scalar.ofInt 1 / (Scalar.ofInt 2 * p.m))
      = (Real.logb 2 (1 + 1 / (2 * m)) : EReal) := by
    rw [hm, ofInt_eq, ofInt_eq, ← EReal.coe_mul, ← EReal.coe_div, ← EReal.coe_add, Int.cast_one,
      Int.cast_ofNat]
    exact log2_coe (by positivity)
  rw [Params.logAlpha, hlog, ofHalves_eq, ofInt_eq, ← EReal.coe_mul, ← EReal.coe_sub,
    logb_realAlpha h0, Int.cast_one]

/-- Without queries the power is one and its logarithm zero. -/
theorem logTerms_query (hm : p.m = m) (h0 : 0 < m) :
    p.logTerms.query = log2 ((realAlpha p m ^ p.numQueries.toNat : ℝ) : EReal) := by
  rw [log2_coe (pow_pos (realAlpha_pos h0) _).ne', Real.logb_pow]
  simp only [Params.logTerms]
  by_cases hq : p.numQueries = 0
  · rw [if_pos hq, hq, ofInt_eq]
    simp
  · rw [if_neg hq, logAlpha_eq hm h0, ofInt_eq, ← EReal.coe_mul]
    simp

/-! ### The logarithm of the bound -/

theorem logScaleTotal_pos (h0 : 0 < m) : 0 < logScaleTotal p m := by
  have hprox : 0 < realProximity p m := realProximity_pos h0
  have hfold : 0 ≤ realFolding p m := realFolding_nonneg h0
  have halpha : 0 < realAlpha p m := realAlpha_pos h0
  rw [logScaleTotal]
  positivity

theorem logTotal_eq (hm : p.m = m) (h0 : 0 < m) :
    p.logTerms.total = (Real.logb 2 (logScaleTotal p m) : EReal) := by
  have hprox : weight p.logTerms.proximity = 2 ^ (clipped p : ℝ) * realProximity p m := by
    rw [logTerms_proximity hm h0, weight_coe, Real.rpow_add two_pos,
      Real.rpow_logb two_pos (by norm_num) (realProximity_pos h0), mul_comm]
  have hfold : weight p.logTerms.folding = realFolding p m := by
    rw [logTerms_folding hm h0, weight_log2 (realFolding_nonneg h0)]
  have hquery : weight p.logTerms.query = realAlpha p m ^ p.numQueries.toNat := by
    rw [logTerms_query hm h0, weight_log2 (pow_nonneg (realAlpha_pos h0).le _)]
  have hne : ∀ x ∈ [p.logTerms.proximity, p.logTerms.folding, p.logTerms.query], x ≠ ⊤ := by
    simp only [List.mem_cons, List.not_mem_nil, or_false]
    rintro x (rfl | rfl | rfl)
    · rw [logTerms_proximity hm h0]
      exact EReal.coe_ne_top _
    · rw [logTerms_folding hm h0]
      exact log2_coe_ne_top _
    · rw [logTerms_query hm h0]
      exact log2_coe_ne_top _
  rw [LogTerms.total, log2SumExp2_eq hne, ← log2_coe (logScaleTotal_pos h0).ne']
  simp only [List.map_cons, List.map_nil, List.sum_cons, List.sum_nil, hprox, hfold, hquery]
  rw [add_zero, logScaleTotal, add_assoc]

theorem logBound_eq (hm : p.m = m) (h0 : 0 < m) :
    p.logBound = .ok (Real.logb 2 (logScaleTotal p m) : EReal) := by
  have hlt : Scalar.lt p.m (Scalar.ofInt 0) = false := by
    rw [hm, ofInt_eq]
    simpa [Scalar.lt] using h0.le
  simp only [Params.logBound, not_same_zero hm h0.ne', hlt, logTotal_eq hm h0, isFinite_coe]
  rw [hm, isFinite_coe]
  rfl

theorem exp2_logBound (h0 : 0 < m) :
    exp2 (Real.logb 2 (logScaleTotal p m) : ℝ) = (logScaleTotal p m : EReal) := by
  rw [exp2_coe, Real.rpow_logb two_pos (by norm_num) (logScaleTotal_pos h0)]

/-- The two totals are one when nothing is clipped, and only then: the proximity error does not
vanish. -/
theorem logScaleTotal_eq_iff (h0 : 0 < m) :
    logScaleTotal p m = realProximity p m + realFolding p m + realAlpha p m ^ p.numQueries.toNat
      ↔ clipped p = 0 := by
  rw [logScaleTotal, add_left_inj, add_left_inj, mul_eq_right₀ (realProximity_pos h0).ne',
    two_rpow_clipped_eq_one_iff]

/-- **The evaluation in logarithms computes the bound.** With a positive `m`, and whatever the other
parameters are, both evaluations succeed; the logarithms of the folding and of the query error are
exactly those of the terms; and those of the proximity error and of the whole bound are so for
every domain size whose doubled exponent stays a word. Beyond, the terms are evaluated for a
smaller square than the logarithms, and the factor between the two is `2 ^ clipped`. -/
theorem logBound_exact (hpos : 0 < p.m) (hfin : p.m < ⊤) :
    ∃ t l, p.terms = .ok t ∧ p.logBound = .ok l ∧
      p.logTerms.folding = log2 t.folding ∧
      p.logTerms.query = log2 t.query ∧
      p.logTerms.proximity = log2 t.proximity + Scalar.ofInt (clipped p) ∧
      exp2 l = exp2 (Scalar.ofInt (clipped p)) * t.proximity + t.folding + t.query ∧
      (p.logTerms.proximity = log2 t.proximity ↔
        -2 ^ 30 ≤ p.codewordSizeBits.toInt ∧ p.codewordSizeBits.toInt < 2 ^ 30) ∧
      (exp2 l = t.total ↔
        -2 ^ 30 ≤ p.codewordSizeBits.toInt ∧ p.codewordSizeBits.toInt < 2 ^ 30) := by
  have hreal : p.m = (p.m.toReal : EReal) := (EReal.coe_toReal hfin.ne (ne_bot_of_gt hpos)).symm
  generalize p.m.toReal = m at hreal
  have h0 : 0 < m := by rwa [hreal, EReal.coe_pos] at hpos
  have hlog : log2 (realProximity p m : EReal) = (Real.logb 2 (realProximity p m) : ℝ) :=
    log2_coe (realProximity_pos h0).ne'
  refine ⟨_, _, terms_eq hreal h0.ne', logBound_eq hreal h0, logTerms_folding hreal h0,
    logTerms_query hreal h0, ?_, ?_, ?_, ?_⟩
  · rw [logTerms_proximity hreal h0, hlog, ofInt_eq, EReal.coe_add]
  · rw [exp2_logBound h0, logScaleTotal, ofInt_eq, exp2_coe, EReal.coe_add, EReal.coe_add,
      EReal.coe_mul]
  · rw [logTerms_proximity hreal h0, hlog, EReal.coe_eq_coe_iff, add_eq_left, Int.cast_eq_zero,
      clipped_eq_zero_iff]
  · rw [exp2_logBound h0, Terms.total, ← EReal.coe_add, ← EReal.coe_add, EReal.coe_eq_coe_iff,
      logScaleTotal_eq_iff h0, clipped_eq_zero_iff]

/-- A small instance, with three rounds of folding. -/
noncomputable def smallInstance : Params EReal where
  numFunctions := 1
  rateBits := 1
  codewordSizeBits := 20
  m := 4
  arityBits := [2, 2, 2]
  numRounds := 3
  fieldSizeBits := 128
  numQueries := 80

theorem logBound_exact_smallInstance :
    0 < smallInstance.m ∧ smallInstance.m < ⊤ ∧
      ∃ t l, smallInstance.terms = .ok t ∧ smallInstance.logBound = .ok l ∧
        smallInstance.logTerms.proximity = log2 t.proximity ∧
        smallInstance.logTerms.folding = log2 t.folding ∧
        smallInstance.logTerms.query = log2 t.query ∧ exp2 l = t.total := by
  have hpos : 0 < smallInstance.m := by norm_num [smallInstance]
  have hfin : smallInstance.m < ⊤ := EReal.coe_lt_top 4
  have hsize : -2 ^ 30 ≤ smallInstance.codewordSizeBits.toInt
      ∧ smallInstance.codewordSizeBits.toInt < 2 ^ 30 := by decide
  obtain ⟨t, l, ht, hl, hfold, hquery, -, -, hprox, htotal⟩ := logBound_exact hpos hfin
  exact ⟨hpos, hfin, t, l, ht, hl, hprox.mpr hsize, hfold, hquery, htotal.mpr hsize⟩

/-- The largest domain that can be asked for, over a field with one element. -/
noncomputable def largestDomain : Params EReal where
  numFunctions := 1
  rateBits := 0
  codewordSizeBits := 2 ^ 31 - 1
  m := Scalar.ofHalves 1
  arityBits := []
  numRounds := 0
  fieldSizeBits := 0
  numQueries := 0

/-- Where the doubled exponent leaves the word, the two evaluations are of different bounds. -/
theorem largestDomain_not_exact :
    0 < largestDomain.m ∧ largestDomain.m < ⊤ ∧
      ∃ t l, largestDomain.terms = .ok t ∧ largestDomain.logBound = .ok l ∧
        largestDomain.logTerms.proximity ≠ log2 t.proximity ∧ exp2 l ≠ t.total := by
  have hm : largestDomain.m = ((1 / 2 : ℝ) : EReal) := by
    rw [largestDomain, ofHalves_eq, Int.cast_one]
  have h0 : (0 : ℝ) < 1 / 2 := by norm_num
  have hclip : clipped largestDomain ≠ 0 := by
    rw [Ne, clipped_eq_zero_iff]
    decide
  have hpos : 0 < largestDomain.m := hm ▸ EReal.coe_pos.mpr h0
  refine ⟨hpos, EReal.coe_lt_top _, _, _, terms_eq hm h0.ne', logBound_eq hm h0,
    ?_, ?_⟩
  · rw [logTerms_proximity hm h0, log2_coe (realProximity_pos h0).ne', Ne, EReal.coe_eq_coe_iff,
      add_eq_left, Int.cast_eq_zero]
    exact hclip
  · rw [exp2_logBound h0, Terms.total, ← EReal.coe_add, ← EReal.coe_add, Ne, EReal.coe_eq_coe_iff,
      logScaleTotal_eq_iff h0]
    exact hclip

end Exact

end FriBound
