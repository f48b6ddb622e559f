import FriBound.Proofs.LogScaleError
import FriBound.Proofs.RoundedElementary

/-!
# The agreement of the two evaluations

The logarithm of the bound is evaluated in two ways: from the bound, and without it. With accurate
elementary functions both are accurate, and so they agree to nine digits after the point, as long as
the parameters are moderate (`Params.Moderate`).

Without a limit to the rate they do not. At the rate `2 ^ (-715)` the power of the rate in the
denominator of the proximity error is `2 ^ (-1072.5)`, which is rounded to three of the smallest
numbers, and the bound comes out too small by 6%. No check sees this.

## Main definitions

* `Agrees` — agreement to nine digits after the point

## Main results

* `Elementary.logBound_agrees` — the two evaluations agree
* `Elementary.not_agrees_faintCode` — they do not at a very small rate
-/

namespace FriBound

open Binary64 (unit toReal ofInt ofHalves twoPow zero inf)

/-- The number `l` is the logarithm of the bound `v` to nine digits after the point. -/
structure Agrees (l v : Binary64) : Prop where
  abs_sub_le : |l.toReal - Real.logb 2 v.toReal| ≤ 1 / 10 ^ 9

namespace Elementary

variable {E E' : Elementary} {p : Params Binary64}

/-- **The two evaluations agree.** Where valid parameters have a bound, the evaluation in logarithms
succeeds, and for moderate parameters its result is the logarithm of the bound to nine digits after
the point. -/
theorem logBound_agrees (hlog : E.LogLaws) (hexp : E.ExpLaws) (hpow : E.PowLaws)
    (hacc : E.Accurate) (hvalid : p.validate = .ok ()) {v : Binary64} (hv : E.bound p = .ok v) :
    ∃ l, E.logBound p = .ok l ∧ (p.Moderate → Agrees l v) := by
  obtain ⟨t, ht, hsum, hfin⟩ := bound_eq_ok_iff_terms.mp hv
  obtain ⟨hm, -, hguarded, rfl⟩ := terms_eq_ok_iff_guarded.mp ht
  have h : E.Evaluable p := ⟨hvalid, hguarded⟩
  have hl : E.logBound p = .ok (E.logTotal p) := (logBound_eq_ok_iff_logTotal hlog).mpr
    ⟨hm, h.m_pos.2, not_logOverflow hpow.toPowSpecial ⟨_, ht⟩, rfl⟩
  refine ⟨_, hl, fun hp => ⟨?_⟩⟩
  have hlinear := (h.near_total hexp hpow hacc hp hsum hfin).abs_logb_sub_le h.exactTotal_pos
  have hscale := h.off_logTotal hlog hexp hpow.toPowSpecial hacc hp
  rw [abs_sub_comm] at hlinear
  refine (abs_sub_le _ _ _).trans ((add_le_add hscale hlinear).trans ?_)
  rw [eps_eq]
  norm_num

/-! ### A choice of functions -/

/-- The terms depend on the choice of elementary functions by the power of the rate only, as long as
the power to the number of queries is taken by repeated squaring. -/
theorem terms_congr (hexp : E.ExpLaws) (hexp' : E'.ExpLaws) (hr : p.rateBits.toInt ≠ 0)
    (hq : p.numQueries.toNat < 2 ^ 31)
    (hpow : E.pow (twoPow (-p.rateBits.toInt)) (ofHalves 3)
      = E'.pow (twoPow (-p.rateBits.toInt)) (ofHalves 3)) :
    E.values p = E'.values p ∧ E.guarded p = E'.guarded p := by
  have hsize : E.size = E'.size := by
    funext n
    rw [size, size, hexp.eq_twoPow, hexp'.eq_twoPow]
  have hrate : (E.values p).rate = (E'.values p).rate := by
    show E.exp2 (-ofInt p.rateBits.toInt) = E'.exp2 (-ofInt p.rateBits.toInt)
    rw [Binary64.neg_ofInt hr, hexp.eq_twoPow, hexp'.eq_twoPow]
  have hrate' : (E'.values p).rate = twoPow (-p.rateBits.toInt) := by
    show E'.exp2 (-ofInt p.rateBits.toInt) = _
    rw [Binary64.neg_ofInt hr, hexp'.eq_twoPow]
  have halpha : (E.values p).alpha = (E'.values p).alpha := by
    rw [alpha_formula, alpha_formula, hrate]
  have hsum : E.aritySum p = E'.aritySum p := by
    rw [aritySum_formula, aritySum_formula, hsize]
  have hproximity : (E.values p).proximity = (E'.values p).proximity := by
    rw [proximity_formula, proximity_formula, denominator_formula, denominator_formula, hrate,
      hrate', hpow, hsize]
  have hfolding : (E.values p).folding = (E'.values p).folding := by
    rw [folding_formula, folding_formula, hrate, hsum, hsize]
  have hquery : (E.values p).query = (E'.values p).query := by
    show E.queryPower (E.values p).alpha _ = E'.queryPower (E'.values p).alpha _
    rw [queryPower_eq_powNat hq, queryPower_eq_powNat hq, halpha]
  constructor
  · show Terms.mk (E.values p).rate (E.values p).alpha (E.values p).proximity
      (E.values p).folding (E.values p).query = _
    rw [hrate, halpha, hproximity, hfolding, hquery]
  · show [(Quantity.codewordSize, E.size p.codewordSizeBits.toInt),
      (.codewordSizeSquared, E.size p.codewordSquareBits),
      (.fieldSize, E.size p.fieldSizeBits.toInt), (.aritySum, E.aritySum p),
      (.proximity, (E.values p).proximity), (.folding, (E.values p).folding),
      (.query, (E.values p).query)] = _
    rw [hsize, hsum, hproximity, hfolding, hquery]
    rfl

/-- At the rate `1 / 4` the power of the rate is `1 / 8`. -/
theorem rounded_pow_quarter :
    rounded.pow (twoPow (-2)) (ofHalves 3) = whole.pow (twoPow (-2)) (ofHalves 3) := by
  have hwhole : whole.pow (twoPow (-2)) (ofHalves 3) = twoPow (-3) := by decide +kernel
  have hfin : (twoPow (-2)).isFinite = true := Binary64.isFinite_twoPow (by decide) (by decide)
  have hfin' : (twoPow (-3)).isFinite = true := Binary64.isFinite_twoPow (by decide) (by decide)
  have hvalue : (twoPow (-2)).toReal ^ (ofHalves 3).toReal = (twoPow (-3)).toReal := by
    rw [Binary64.toReal_twoPow (by decide) (by decide),
      Binary64.toReal_twoPow (by decide) (by decide), Binary64.toReal_ofHalves (by decide),
      ← Real.rpow_mul two_pos.le]
    norm_num
  show roundedPow (twoPow (-2)) (ofHalves 3) = _
  rw [roundedPow_of_isFinite hfin, hvalue, hwhole,
    Binary64.ofReal_toReal hfin' (Binary64.twoPow_pos (by decide) (by decide))]

/-- The real functions, rounded, give this code a bound and a logarithm that agree. -/
theorem logBound_agrees_quarterCode :
    quarterCode.validate = .ok () ∧ quarterCode.Moderate ∧
      ∃ v l, rounded.bound quarterCode = .ok v ∧ rounded.logBound quarterCode = .ok l ∧
        Agrees l v := by
  have hmoderate : quarterCode.Moderate := ⟨by decide, by decide, by decide⟩
  obtain ⟨hvalues, hguarded⟩ := terms_congr (p := quarterCode) expLaws_rounded expLaws_whole
    (by decide) (by decide) rounded_pow_quarter
  obtain ⟨-, -, hfinite, -⟩ := terms_eq_ok_iff_guarded.mp terms_quarterCode
  have hterms : rounded.terms quarterCode = whole.terms quarterCode :=
    (terms_eq_ok_iff_guarded.mpr ⟨Binary64.isFinite_one, quarterCode_m_ne_zero,
      hguarded ▸ hfinite, hvalues.symm⟩).trans terms_quarterCode.symm
  obtain ⟨v, hv⟩ := exists_bound_quarterCode
  obtain ⟨t, ht, hsum⟩ := bound_eq_ok_iff_terms.mp hv
  have hbound : rounded.bound quarterCode = .ok v :=
    bound_eq_ok_iff_terms.mpr ⟨t, hterms.trans ht, hsum⟩
  obtain ⟨l, hl, hagrees⟩ := logBound_agrees logLaws_rounded expLaws_rounded powLaws_rounded
    accurate_rounded validate_quarterCode hbound
  exact ⟨validate_quarterCode, hmoderate, v, l, hbound, hl, hagrees hmoderate⟩

/-! ### A very small rate -/

/-- A code at the rate `2 ^ (-715)`, over a field that makes up for it. -/
def faintCode : Params Binary64 where
  numFunctions := 1
  rateBits := 715
  codewordSizeBits := 1
  fieldSizeBits := 1023
  m := ofHalves 1
  arityBits := []
  numRounds := 0
  numQueries := 1

/-- Its bound is less than `2 ^ (50.42)`, and the evaluation in logarithms gives `50.5`. -/
theorem not_agrees_faintCode :
    faintCode.validate = .ok () ∧ ∃ v l, tabulated.bound faintCode = .ok v ∧
      (zero false).lt v = true ∧ tabulated.logBound faintCode = .ok l ∧ ¬Agrees l v := by
  have hm : ∀ s, faintCode.m ≠ zero s := by decide +kernel
  have hvalid : faintCode.validate = .ok () :=
    Params.validate_eq_ok_iff.mpr ⟨by decide, by decide, by decide,
      ⟨by decide +kernel, by decide +kernel⟩, by simp [faintCode], rfl, by decide, by decide⟩
  have hterms : tabulated.terms faintCode = .ok (tabulated.values faintCode) :=
    terms_eq_ok_iff_guarded.mpr ⟨by decide +kernel, not_exists.mpr hm, by decide +kernel, rfl⟩
  have hbound : tabulated.bound faintCode = .ok _ :=
    bound_eq_ok_iff_terms.mpr ⟨_, hterms, rfl, by decide +kernel⟩
  have htotal : tabulated.logTotal faintCode = ofHalves 101 := by decide +kernel
  have hlog : tabulated.logBound faintCode = .ok (tabulated.logTotal faintCode) :=
    (@Params.logBound_of_positive _ tabulated.scalar faintCode (by decide +kernel)
      (by decide +kernel) (by decide +kernel)).trans (if_neg (by decide +kernel))
  rw [htotal] at hlog
  have hpos : (zero false).lt ((tabulated.values faintCode).proximity
      + (tabulated.values faintCode).folding + (tabulated.values faintCode).query) = true := by
    decide +kernel
  refine ⟨hvalid, _, _, hbound, hpos, hlog, ?_⟩
  have hle : (tabulated.values faintCode).proximity + (tabulated.values faintCode).folding
      + (tabulated.values faintCode).query ≤ ofInt 1501199875790166 := by
    decide +kernel
  have hfin := (bound_eq_ok_iff_terms.mp hbound).choose_spec.2.2
  generalize (tabulated.values faintCode).proximity + (tabulated.values faintCode).folding
    + (tabulated.values faintCode).query = v at *
  have hvalue := Binary64.toReal_le_toReal hle hfin
    (Binary64.Within.isFinite (e := 51) (Binary64.Within.ofInt (by decide)) (by decide))
  rw [Binary64.toReal_ofInt (by decide)] at hvalue
  have hreal := Binary64.toReal_pos hpos hfin
  -- The bound is about `4 / 3 * 2 ^ 50`, and `4 / 3` is less than `2 ^ (7 / 16)`.
  have hpower : (v.toReal / 2 ^ 50) ^ 16 ≤ 2 ^ 7 := by
    calc (v.toReal / 2 ^ 50) ^ 16 ≤ (((1501199875790166 : ℤ) : ℝ) / 2 ^ 50) ^ 16 := by gcongr
      _ ≤ 2 ^ 7 := by norm_num
  have hlogb := Real.logb_le_logb_of_le one_lt_two (by positivity) hpower
  rw [Real.logb_pow, Real.logb_pow, Real.logb_div hreal.ne' (by positivity), Real.logb_pow,
    Real.logb_self_eq_one one_lt_two] at hlogb
  push_cast at hlogb
  rintro ⟨hagrees⟩
  rw [Binary64.toReal_ofHalves (by decide), abs_le] at hagrees
  have hhigh := hagrees.2
  push_cast at hhigh
  linarith

end Elementary

end FriBound
