import FriBound.Proofs.LinearError
import FriBound.Proofs.LogSumError

/-!
# The error of the bound in logarithms

No logarithm on the way is larger than a few thousand, apart from that of the query error, which
grows with the number of queries. So the errors are counted in roundings of a one, and the query
error decides: the logarithm of `alpha` is a difference, whose error is multiplied by the number of
queries.

## Main results

* `Elementary.Evaluable.off_logProximity`, `Elementary.Evaluable.off_logFolding`,
  `Elementary.Evaluable.off_logQuery` — the errors of the logarithms of the terms
* `Elementary.Evaluable.off_logTotal` — the error of the logarithm of the bound
-/

namespace FriBound

open Binary64 (unit toReal ofInt ofHalves zero inf)
open Exact (realRate realAlpha realProximity realFolding realAritySum)

theorem Binary64.isFinite_sub {x y : Binary64} (h : (x - y).isFinite = true) :
    x.isFinite = true ∧ y.isFinite = true :=
  ⟨(isFinite_add h).1, isFinite_neg.symm.trans (isFinite_add h).2⟩

namespace Elementary

variable {E : Elementary} {p : Params Binary64}

/-- The logarithm of a positive number that is near a value, and the size of the latter. -/
theorem Accurate.off_log2_near (hacc : E.Accurate) {e t : ℝ} {x : Binary64}
    (hx : x.isFinite = true) (hpos : (zero false).lt x = true) (hnear : Near (e * eps) x.toReal t)
    (ht : 0 < t) (he : e * eps ≤ 1) :
    Off (1075 + e) (E.log2 x) (Real.logb 2 t) ∧ |Real.logb 2 t| ≤ 1075 := by
  have hsize := Binary64.abs_logb_toReal_le hx hpos
  refine ⟨(hacc.off_log2 hx hpos hsize hnear ht).mono (by linarith), ?_⟩
  have hdiff := abs_le.mp (hnear.abs_logb_sub_le ht)
  have hsize' := abs_le.mp hsize
  rw [abs_le]
  constructor <;> linarith

/-- The logarithm of a number that is not negative and has a positive one added to it. -/
theorem Accurate.off_log2_add (hacc : E.Accurate) {x c : Binary64} (hx : zero false ≤ x)
    (hc : (zero false).lt c = true) (hxfin : x.isFinite = true) (hcfin : c.isFinite = true)
    (hfin : (x + c).isFinite = true) :
    Off 1076 (E.log2 (x + c)) (Real.logb 2 (x.toReal + c.toReal)) ∧
      |Real.logb 2 (x.toReal + c.toReal)| ≤ 1075 := by
  have hx0 := Binary64.toReal_nonneg hx hxfin
  have hc0 := Binary64.toReal_pos hc hcfin
  have hpos : (zero false).lt (x + c) = true :=
    Binary64.lt_of_lt_of_le hc (Binary64.le_add_of_nonneg hcfin hxfin hx).2
  have hnear := near_add hx0 hc0.le hfin
  rw [← one_mul eps] at hnear
  obtain ⟨hoff, hsize⟩ := hacc.off_log2_near hfin hpos hnear (by linarith)
    (by rw [eps_eq]; norm_num)
  exact ⟨hoff.mono (by norm_num), hsize⟩

namespace Evaluable

/-! ### Exact numbers -/

theorem toReal_word (n : Int32) : (ofInt n.toInt).toReal = n.toInt := by
  have := n.le_toInt
  have := n.toInt_lt
  exact Binary64.toReal_ofInt (by omega)

theorem size_bounds (h : E.Evaluable p) (hexp : E.ExpLaws) :
    (1 : ℝ) ≤ p.codewordSizeBits.toInt ∧ (p.codewordSizeBits.toInt : ℝ) ≤ 1023 := by
  obtain ⟨-, -, hbits, -⟩ := Params.validate_eq_ok_iff.mp h.valid
  have hle := hexp.le_of_isFinite h.inRange.size
  exact ⟨by exact_mod_cast hbits, by exact_mod_cast hle⟩

theorem field_bounds (h : E.Evaluable p) (hexp : E.ExpLaws) :
    (1 : ℝ) ≤ p.fieldSizeBits.toInt ∧ (p.fieldSizeBits.toInt : ℝ) ≤ 1023 := by
  obtain ⟨-, -, -, -, -, -, hbits, -⟩ := Params.validate_eq_ok_iff.mp h.valid
  have hle := hexp.le_of_isFinite h.inRange.field
  exact ⟨by exact_mod_cast hbits, by exact_mod_cast hle⟩

theorem rate_bounds (h : E.Evaluable p) (hr : p.rateBits.toInt ≤ 681) :
    (1 : ℝ) ≤ p.rateBits.toInt ∧ (p.rateBits.toInt : ℝ) ≤ 681 :=
  ⟨by exact_mod_cast h.rateBits_pos, by exact_mod_cast hr⟩

/-- The doubled exponent of the domain size is not clipped. -/
theorem codewordSquareBits_eq (h : E.Evaluable p) (hexp : E.ExpLaws) :
    p.codewordSquareBits = 2 * p.codewordSizeBits.toInt := by
  have hpos := (Params.validate_eq_ok_iff.mp h.valid).2.2.1
  have hle := hexp.le_of_isFinite h.inRange.size
  unfold Params.codewordSquareBits
  omega

/-- The exponent of the root of the rate. -/
theorem off_halfRate (h : E.Evaluable p) (hr : p.rateBits.toInt ≤ 681) :
    Off 171 (ofHalves 1 * ofInt p.rateBits.toInt) (1 / 2 * p.rateBits.toInt) := by
  have hbits := h.rate_bounds hr
  have hhalf : (ofHalves 1).toReal = 1 / 2 := by
    rw [Binary64.toReal_ofHalves (by decide), Int.cast_one]
  have hfin := (within_halfRate p).isFinite (by decide)
  refine (Off.exact_mul (B := 341) (C := 1) hhalf ?_ (Off.exact (toReal_word _)) hfin
    (by norm_num) ?_).mono (by norm_num)
  · rw [abs_le]
    constructor <;> norm_num
  · rw [abs_le]
    constructor <;> linarith

/-! ### The proximity error -/

theorem logb_realProximity (h : E.Evaluable p) (hexp : E.ExpLaws) :
    Real.logb 2 (realProximity p.exactly p.m.toReal)
      = 7 * Real.logb 2 (p.m.toReal + 1 / 2) + 2 * p.codewordSizeBits.toInt - 1
        + 3 / 2 * p.rateBits.toInt - p.fieldSizeBits.toInt := by
  have hbits : (p.exactly.codewordSquareBits : ℝ) = 2 * p.codewordSizeBits.toInt := by
    exact_mod_cast h.codewordSquareBits_eq hexp
  rw [Exact.logb_realProximity h.toReal_m_pos, hbits]
  rfl

theorem off_logProximity (h : E.Evaluable p) (hlog : E.LogLaws) (hexp : E.ExpLaws)
    (hacc : E.Accurate) (hr : p.rateBits.toInt ≤ 681) :
    Off 33000 (E.logTerms p).proximity (Real.logb 2 (realProximity p.exactly p.m.toReal)) ∧
      |Real.logb 2 (realProximity p.exactly p.m.toReal)| ≤ 12000 := by
  obtain ⟨hsize1, hsize2⟩ := h.size_bounds hexp
  obtain ⟨hfield1, hfield2⟩ := h.field_bounds hexp
  obtain ⟨hrate1, hrate2⟩ := h.rate_bounds hr
  have hformula : (E.logTerms p).proximity = ofInt 7 * E.log2 (p.m + ofHalves 1)
      + ofInt 2 * ofInt p.codewordSizeBits.toInt - ofInt 1 + ofHalves 3 * ofInt p.rateBits.toInt
      - ofInt p.fieldSizeBits.toInt := rfl
  have hfin := (within_proximity hlog h.m_pos.1 h.m_pos.2).isFinite (by decide)
  rw [hformula] at hfin ⊢
  have hfin1 := (Binary64.isFinite_sub hfin).1
  obtain ⟨hfin2, hfin2'⟩ := Binary64.isFinite_add hfin1
  have hfin3 := (Binary64.isFinite_sub hfin2).1
  obtain ⟨hfin4, hfin4'⟩ := Binary64.isFinite_add hfin3
  have hhalf : (ofHalves 1).toReal = 1 / 2 := by
    rw [Binary64.toReal_ofHalves (by decide), Int.cast_one]
  have hwithin : Binary64.Within 0 (ofHalves 1) := Binary64.Within.ofHalves (by decide)
  obtain ⟨hbase, hbase'⟩ := hacc.off_log2_add (Binary64.le_of_lt h.m_pos.2) Binary64.half_pos
    h.m_pos.1 (hwithin.isFinite (by decide))
    (Binary64.isFinite_add_of_within h.m_pos.1 hwithin (by decide))
  rw [hhalf] at hbase hbase'
  rw [h.logb_realProximity hexp]
  generalize Real.logb 2 (p.m.toReal + 1 / 2) = l at *
  obtain ⟨hl1, hl2⟩ := abs_le.mp hbase'
  have hseven : (ofInt 7).toReal = 7 := by
    rw [Binary64.toReal_ofInt (by decide), Int.cast_ofNat]
  have hthree : (ofHalves 3).toReal = 3 / 2 := by
    rw [Binary64.toReal_ofHalves (by decide), Int.cast_ofNat]
  have hmult := Off.exact_mul (B := 7525) hseven (abs_of_pos (by norm_num)).le hbase hfin4
    (by rw [eps_eq]; norm_num) (abs_le.mpr ⟨by linarith, by linarith⟩)
  have hsquare : Off 0 (ofInt 2 * ofInt p.codewordSizeBits.toInt)
      (2 * p.codewordSizeBits.toInt) :=
    Off.exact (by rw [Binary64.toReal_two_mul hfin4', toReal_word])
  have hscaled := hmult.add (B := 9571) hsquare hfin3 (by rw [eps_eq]; norm_num)
    (abs_le.mpr ⟨by linarith, by linarith⟩)
  have hhalved := hscaled.sub (B := 9572) (Off.exact toReal_one) hfin2 (by rw [eps_eq]; norm_num)
    (abs_le.mpr ⟨by linarith, by linarith⟩)
  have hrate := Off.exact_mul (B := 1022) hthree (abs_of_pos (by norm_num)).le
    (Off.exact (toReal_word p.rateBits)) (Binary64.isFinite_add hfin1).2 (by norm_num)
    (abs_le.mpr ⟨by linarith, by linarith⟩)
  have hrated := hhalved.add (B := 10594) hrate hfin1 (by rw [eps_eq]; norm_num)
    (abs_le.mpr ⟨by linarith, by linarith⟩)
  have hlast := hrated.sub (B := 11617) (Off.exact (toReal_word p.fieldSizeBits)) hfin
    (by rw [eps_eq]; norm_num) (abs_le.mpr ⟨by linarith, by linarith⟩)
  exact ⟨hlast.mono (by norm_num), abs_le.mpr ⟨by linarith, by linarith⟩⟩

/-! ### The folding error -/

/-- The logarithm of the domain size and of one more. -/
theorem off_sizeLog (h : E.Evaluable p) (hlog : E.LogLaws) (hexp : E.ExpLaws)
    (hacc : E.Accurate) :
    Off 622 (E.logSum [ofInt p.codewordSizeBits.toInt, ofInt 0])
        (Real.logb 2 (2 ^ (p.codewordSizeBits.toInt : ℝ) + 1)) ∧
      |Real.logb 2 (2 ^ (p.codewordSizeBits.toInt : ℝ) + 1)| ≤ 1024 := by
  obtain ⟨hsize1, hsize2⟩ := h.size_bounds hexp
  have hword := (within_int32 p.codewordSizeBits).isFinite (by decide)
  have hzero : (ofInt 0).isFinite = true := by
    rw [Binary64.ofInt_zero]
    rfl
  have hzero' : (ofInt 0).toReal = 0 := by rw [Binary64.ofInt_zero, Binary64.toReal_zero]
  have hall : ∀ x ∈ [ofInt p.codewordSizeBits.toInt, ofInt 0],
      (x = inf true ∨ x.isFinite = true) ∧ |x.toReal| ≤ 1023 := by
    simp only [List.forall_mem_cons, toReal_word, hzero']
    exact ⟨⟨Or.inr hword, abs_le.mpr ⟨by linarith, by linarith⟩⟩, ⟨Or.inr hzero, by norm_num⟩,
      by simp⟩
  have hsum : ([ofInt p.codewordSizeBits.toInt, ofInt 0].map Binary64.power).sum
      = 2 ^ (p.codewordSizeBits.toInt : ℝ) + 1 := by
    simp only [List.map_cons, List.map_nil, List.sum_cons, List.sum_nil,
      Binary64.power_of_isFinite hword, Binary64.power_of_isFinite hzero, toReal_word, hzero',
      Real.rpow_zero, add_zero]
  have hoff := off_logSum hlog hacc hall ⟨_, List.mem_cons_self .., hword⟩ (by norm_num)
    (by norm_num)
  rw [hsum] at hoff
  refine ⟨hoff.mono (by norm_num), ?_⟩
  have hlarge : (1 : ℝ) ≤ 2 ^ (p.codewordSizeBits.toInt : ℝ) :=
    Real.one_le_rpow one_le_two (by linarith)
  rw [abs_of_nonneg (Real.logb_nonneg one_lt_two (by linarith)),
    Real.logb_le_iff_le_rpow one_lt_two (by linarith)]
  calc (2 : ℝ) ^ (p.codewordSizeBits.toInt : ℝ) + 1
      ≤ 2 ^ (p.codewordSizeBits.toInt : ℝ) * 2 ^ (1 : ℝ) := by
        rw [Real.rpow_one]
        linarith
    _ = 2 ^ (p.codewordSizeBits.toInt + 1 : ℝ) := (Real.rpow_add two_pos _ _).symm
    _ ≤ 2 ^ (1024 : ℝ) := Real.rpow_le_rpow_of_exponent_le one_le_two (by linarith)

/-- No arity is larger than what the format has a power of two for. -/
theorem arityBits_le (h : E.Evaluable p) (hexp : E.ExpLaws) :
    ∀ a ∈ p.arityBits, a.toNat ≤ 1023 := by
  intro a ha
  have hfin := h.inRange.aritySum
  rw [aritySum_formula] at hfin
  have hterm : (E.size a.toNat).isFinite = true :=
    (@Scalar.isFinite_foldl_add _ E.scalar _ _ _ hfin).2.1 _ (List.mem_map_of_mem ha)
  exact_mod_cast hexp.le_of_isFinite hterm

theorem logb_realAritySum_le (h : E.Evaluable p) (hexp : E.ExpLaws) (hne : p.arityBits ≠ [])
    (hlen : p.arityBits.length ≤ 65536) : Real.logb 2 (realAritySum p.exactly) ≤ 1039 := by
  have hone := one_le_realAritySum (q := p.exactly) hne
  have hcount : (p.arityBits.length : ℝ) ≤ 65536 := by exact_mod_cast hlen
  have hterms : ∀ w ∈ p.arityBits.map fun a => (2 : ℝ) ^ (a.toNat : ℝ), w ≤ 2 ^ (1023 : ℝ) := by
    intro w hw
    obtain ⟨a, ha, rfl⟩ := List.mem_map.mp hw
    exact Real.rpow_le_rpow_of_exponent_le one_le_two (by exact_mod_cast h.arityBits_le hexp a ha)
  have hcard := List.sum_le_card_nsmul _ _ hterms
  rw [List.length_map, nsmul_eq_mul] at hcard
  rw [Real.logb_le_iff_le_rpow one_lt_two (by linarith)]
  calc realAritySum p.exactly ≤ p.arityBits.length * 2 ^ (1023 : ℝ) := hcard
    _ ≤ 2 ^ (16 : ℝ) * 2 ^ (1023 : ℝ) := by
      gcongr
      exact hcount.trans_eq (by norm_num)
    _ = 2 ^ (1039 : ℝ) := by
      rw [← Real.rpow_add two_pos]
      norm_num

/-- The logarithm of the sum of the arities. -/
theorem off_arityLog (h : E.Evaluable p) (hlog : E.LogLaws) (hexp : E.ExpLaws)
    (hacc : E.Accurate) (hne : p.arityBits ≠ []) (hlen : p.arityBits.length ≤ 65536) :
    Off 328292 (E.logSum (p.arityBits.map fun a => ofInt a.toNat))
        (Real.logb 2 (realAritySum p.exactly)) ∧
      0 ≤ Real.logb 2 (realAritySum p.exactly) ∧
      Real.logb 2 (realAritySum p.exactly) ≤ 1039 := by
  have hcount : (p.arityBits.length : ℝ) ≤ 65536 := by exact_mod_cast hlen
  have hexact : ∀ a ∈ p.arityBits, (ofInt a.toNat).isFinite = true ∧
      (ofInt a.toNat).toReal = a.toNat := by
    intro a ha
    have hle := h.arityBits_le hexp a ha
    exact ⟨(within_uint64 a).isFinite (by decide), Binary64.toReal_ofInt (by omega)⟩
  have hall : ∀ x ∈ p.arityBits.map fun a => ofInt a.toNat,
      (x = inf true ∨ x.isFinite = true) ∧ |x.toReal| ≤ 1023 := by
    intro x hx
    obtain ⟨a, ha, rfl⟩ := List.mem_map.mp hx
    rw [(hexact a ha).2, abs_of_nonneg (Nat.cast_nonneg _)]
    exact ⟨Or.inr (hexact a ha).1, by exact_mod_cast h.arityBits_le hexp a ha⟩
  have hsum : ((p.arityBits.map fun a => ofInt a.toNat).map Binary64.power).sum
      = realAritySum p.exactly := by
    rw [List.map_map]
    refine congrArg List.sum (List.map_congr_left fun a ha => ?_)
    rw [Function.comp_apply, Binary64.power_of_isFinite (hexact a ha).1, (hexact a ha).2]
  obtain ⟨a, ha⟩ := List.exists_mem_of_ne_nil _ hne
  have hoff := off_logSum hlog hacc hall
    ⟨_, List.mem_map_of_mem ha, (hexact a ha).1⟩ (by norm_num)
    (by rw [List.length_map]; linarith)
  rw [hsum, List.length_map] at hoff
  exact ⟨hoff.mono (by linarith), Real.logb_nonneg one_lt_two (one_le_realAritySum hne),
    h.logb_realAritySum_le hexp hne hlen⟩

theorem realFolding_pos (h : E.Evaluable p) (hne : p.arityBits ≠ []) :
    0 < realFolding p.exactly p.m.toReal := by
  have hhead := lt_of_lt_of_le zero_lt_one h.one_le_foldingHead
  have hsum := lt_of_lt_of_le zero_lt_one (one_le_realAritySum (q := p.exactly) hne)
  exact div_pos (mul_pos hhead hsum) (Real.rpow_pos_of_pos two_pos _)

theorem logb_realFolding (h : E.Evaluable p) (hne : p.arityBits ≠ []) :
    Real.logb 2 (realFolding p.exactly p.m.toReal) = Real.logb 2 (2 * p.m.toReal + 1)
      + Real.logb 2 (2 ^ (p.codewordSizeBits.toInt : ℝ) + 1) + 1 / 2 * p.rateBits.toInt
      + Real.logb 2 (realAritySum p.exactly) - p.fieldSizeBits.toInt := by
  have hsum := one_le_realAritySum (q := p.exactly) hne
  have hsplit := Exact.log2_realFolding (p := p.exactly) h.toReal_m_pos
  rw [Exact.log2_coe (h.realFolding_pos hne).ne', Exact.log2_coe (by linarith)] at hsplit
  exact_mod_cast hsplit

theorem off_logFolding (h : E.Evaluable p) (hlog : E.LogLaws) (hexp : E.ExpLaws)
    (hacc : E.Accurate) (hp : p.Moderate) (hne : p.arityBits ≠ []) :
    Off 340000 (E.logTerms p).folding (Real.logb 2 (realFolding p.exactly p.m.toReal)) ∧
      |Real.logb 2 (realFolding p.exactly p.m.toReal)| ≤ 5000 := by
  have hm := h.toReal_m_pos
  obtain ⟨htwice, htwicepos⟩ := h.twice_pos
  obtain ⟨hfield1, hfield2⟩ := h.field_bounds hexp
  obtain ⟨hrate1, hrate2⟩ := h.rate_bounds hp.rateBits_le
  have hfin :=
    (within_folding hlog htwice (Binary64.le_of_lt htwicepos) hne).isFinite (by decide)
  rw [folding_eq, foldingHead] at hfin ⊢
  have hfin1 := (Binary64.isFinite_sub hfin).1
  have hfin2 := (Binary64.isFinite_add hfin1).1
  have hfin3 := (Binary64.isFinite_add hfin2).1
  obtain ⟨hlist, hlist'⟩ := hacc.off_log2_add (Binary64.le_of_lt htwicepos) Binary64.one_pos
    htwice Binary64.isFinite_one (Binary64.isFinite_add_of_within htwice within_one (by decide))
  rw [h.toReal_twice, toReal_one] at hlist hlist'
  obtain ⟨hsize, hsize'⟩ := h.off_sizeLog hlog hexp hacc
  obtain ⟨harity, harity1, harity2⟩ := h.off_arityLog hlog hexp hacc hne hp.length_le
  rw [h.logb_realFolding hne]
  generalize Real.logb 2 (2 * p.m.toReal + 1) = l at *
  generalize Real.logb 2 (2 ^ (p.codewordSizeBits.toInt : ℝ) + 1) = c at *
  generalize Real.logb 2 (realAritySum p.exactly) = a at *
  obtain ⟨hl1, hl2⟩ := abs_le.mp hlist'
  obtain ⟨hc1, hc2⟩ := abs_le.mp hsize'
  have hfirst := hlist.add (B := 2099) hsize hfin3 (by rw [eps_eq]; norm_num)
    (abs_le.mpr ⟨by linarith, by linarith⟩)
  have hrated := hfirst.add (B := 2440) (h.off_halfRate hp.rateBits_le) hfin2
    (by rw [eps_eq]; norm_num) (abs_le.mpr ⟨by linarith, by linarith⟩)
  have hsummed := hrated.add (B := 3479) harity hfin1 (by rw [eps_eq]; norm_num)
    (abs_le.mpr ⟨by linarith, by linarith⟩)
  have hlast := hsummed.sub (B := 4502) (Off.exact (toReal_word p.fieldSizeBits)) hfin
    (by rw [eps_eq]; norm_num) (abs_le.mpr ⟨by linarith, by linarith⟩)
  exact ⟨hlast.mono (by norm_num), abs_le.mpr ⟨by linarith, by linarith⟩⟩

/-! ### The query error -/

theorem isFinite_factor (h : E.Evaluable p) (hexp : E.ExpLaws) (hpow : E.PowSpecial) :
    (ofInt 1 + ofInt 1 / (ofInt 2 * p.m)).isFinite = true := by
  have hfin := h.isFinite_alpha hexp hpow
  rw [alpha_formula] at hfin
  exact (Binary64.isFinite_mul hfin).2

theorem off_logAlpha (h : E.Evaluable p) (hlog : E.LogLaws) (hexp : E.ExpLaws)
    (hpow : E.PowSpecial) (hacc : E.Accurate) (hr : p.rateBits.toInt ≤ 681) :
    Off 1786 (E.logAlpha p) (Real.logb 2 (realAlpha p.exactly p.m.toReal)) ∧
      |Real.logb 2 (realAlpha p.exactly p.m.toReal)| ≤ 1075 := by
  have hm := h.toReal_m_pos
  obtain ⟨hrate1, hrate2⟩ := h.rate_bounds hr
  have hfactor := h.isFinite_factor hexp hpow
  have hrecip := (Binary64.isFinite_add hfactor).2
  have hrecip0 := Binary64.zero_le_recip h.twice_pos.2
  have hpos : (zero false).lt (ofInt 1 + ofInt 1 / (ofInt 2 * p.m)) = true :=
    Binary64.lt_of_lt_of_le Binary64.one_pos (Binary64.one_add_spec hrecip hrecip0).2
  have hw : 0 < 1 / (2 * p.m.toReal) := by positivity
  obtain ⟨hvalue, hvalue'⟩ := hacc.off_log2_near hfactor hpos (h.near_factor hfactor)
    (by linarith) (by rw [eps_eq]; norm_num)
  have hnonneg := Real.logb_nonneg one_lt_two (show 1 ≤ 1 + 1 / (2 * p.m.toReal) by linarith)
  have hsplit : Real.logb 2 (realAlpha p.exactly p.m.toReal)
      = Real.logb 2 (1 + 1 / (2 * p.m.toReal)) - 1 / 2 * p.rateBits.toInt :=
    Exact.logb_realAlpha hm
  have hfin := (within_logAlpha hlog hrecip hrecip0).isFinite (by decide)
  rw [logAlpha_eq] at hfin ⊢
  rw [hsplit]
  generalize Real.logb 2 (1 + 1 / (2 * p.m.toReal)) = l at *
  obtain ⟨-, hl⟩ := abs_le.mp hvalue'
  have hdiff := hvalue.sub (B := 1075) (h.off_halfRate hr) hfin (by rw [eps_eq]; norm_num)
    (abs_le.mpr ⟨by linarith, by linarith⟩)
  exact ⟨hdiff.mono (by norm_num), abs_le.mpr ⟨by linarith, by linarith⟩⟩

theorem off_logQuery (h : E.Evaluable p) (hlog : E.LogLaws) (hexp : E.ExpLaws)
    (hpow : E.PowSpecial) (hacc : E.Accurate) (hp : p.Moderate) :
    (E.logTerms p).query.isFinite = true ∧
      Off 2400000 (E.logTerms p).query
        (Real.logb 2 (realAlpha p.exactly p.m.toReal ^ p.numQueries.toNat)) ∧
      |Real.logb 2 (realAlpha p.exactly p.m.toReal ^ p.numQueries.toNat)| ≤ 1100800 := by
  have hrecip := (Binary64.isFinite_add (h.isFinite_factor hexp hpow)).2
  have hfin := (within_query hlog (Binary64.zero_le_recip h.twice_pos.2)
    (Or.inr hrecip)).isFinite (by decide)
  refine ⟨hfin, ?_⟩
  obtain ⟨halpha, halpha'⟩ := h.off_logAlpha hlog hexp hpow hacc hp.rateBits_le
  have hq := hp.numQueries_le
  have hcount : (p.numQueries.toNat : ℝ) ≤ 1024 := by exact_mod_cast hq
  have hcount0 : (0 : ℝ) ≤ p.numQueries.toNat := Nat.cast_nonneg _
  have hqueries : (ofInt p.numQueries.toNat).toReal = p.numQueries.toNat := by
    rw [Binary64.toReal_ofInt (by omega), Int.cast_natCast]
  rw [Elementary.query_eq, if_neg h.queries_pos] at hfin ⊢
  rw [Real.logb_pow]
  have hsize : |p.numQueries.toNat * Real.logb 2 (realAlpha p.exactly p.m.toReal)| ≤ 1100800 := by
    rw [abs_mul, abs_of_nonneg hcount0]
    calc (p.numQueries.toNat : ℝ) * |Real.logb 2 (realAlpha p.exactly p.m.toReal)|
        ≤ 1024 * 1075 := by gcongr
      _ = 1100800 := by norm_num
  exact ⟨(Off.exact_mul (C := 1024) hqueries ((abs_of_nonneg hcount0).trans_le hcount) halpha hfin
    (by rw [eps_eq]; norm_num) hsize).mono (by norm_num), hsize⟩

/-! ### The logarithm of the bound -/

/-- The power of a logarithm that is off. -/
theorem near_power_of_off {e t : ℝ} {x : Binary64} (hx : x.isFinite = true) (ht : 0 < t)
    (h : Off e x (Real.logb 2 t)) : Near (e * eps) x.power t := by
  have hnear := Near.two_rpow h
  rw [Real.rpow_logb two_pos (by norm_num) ht] at hnear
  rw [Binary64.power_of_isFinite hx]
  exact hnear

theorem near_logFolding (h : E.Evaluable p) (hlog : E.LogLaws) (hexp : E.ExpLaws)
    (hacc : E.Accurate) (hp : p.Moderate) :
    ((E.logTerms p).folding = inf true ∨ (E.logTerms p).folding.isFinite = true) ∧
      |(E.logTerms p).folding.toReal| ≤ 5001 ∧
      Near (340000 * eps) (E.logTerms p).folding.power (realFolding p.exactly p.m.toReal) := by
  obtain ⟨htwice, htwicepos⟩ := h.twice_pos
  by_cases hne : p.arityBits = []
  · rw [Elementary.folding_of_nil hlog htwice (Binary64.le_of_lt htwicepos) hne,
      Exact.realFolding_of_nil (p := p.exactly) hne]
    have hvalue : (inf true).toReal = 0 := rfl
    rw [Binary64.power_negInf, hvalue, abs_zero]
    exact ⟨Or.inl rfl, by norm_num, (Near.refl le_rfl).mono (mul_nonneg (by norm_num) eps_pos.le)⟩
  · obtain ⟨hoff, hsize⟩ := h.off_logFolding hlog hexp hacc hp hne
    have hfin :=
      (within_folding hlog htwice (Binary64.le_of_lt htwicepos) hne).isFinite (by decide)
    exact ⟨Or.inr hfin, (hoff.abs_le (by rw [eps_eq]; norm_num) hsize).trans (by norm_num),
      near_power_of_off hfin (h.realFolding_pos hne) hoff⟩

/-- **The error of the bound in logarithms.** -/
theorem off_logTotal (h : E.Evaluable p) (hlog : E.LogLaws) (hexp : E.ExpLaws)
    (hpow : E.PowSpecial) (hacc : E.Accurate) (hp : p.Moderate) :
    Off 3000000 (E.logTotal p) (Real.logb 2 p.exactTotal) := by
  have hm := h.toReal_m_pos
  have heps := eps_pos
  have hfin1 := (within_proximity hlog h.m_pos.1 h.m_pos.2).isFinite (by decide)
  obtain ⟨hoff1, hsize1⟩ := h.off_logProximity hlog hexp hacc hp.rateBits_le
  obtain ⟨hfin2, hsize2, hnear2⟩ := h.near_logFolding hlog hexp hacc hp
  obtain ⟨hfin3, hoff3, hsize3⟩ := h.off_logQuery hlog hexp hpow hacc hp
  have hnear1 := near_power_of_off hfin1 (Exact.realProximity_pos hm) hoff1
  have hnear3 := near_power_of_off hfin3 (pow_pos (Exact.realAlpha_pos hm) _) hoff3
  have hall : ∀ x ∈ [(E.logTerms p).proximity, (E.logTerms p).folding, (E.logTerms p).query],
      (x = inf true ∨ x.isFinite = true) ∧ |x.toReal| ≤ 1100801 := by
    simp only [List.forall_mem_cons]
    refine ⟨⟨Or.inr hfin1, ?_⟩, ⟨hfin2, hsize2.trans (by norm_num)⟩, ⟨Or.inr hfin3, ?_⟩, by simp⟩
    · exact (hoff1.abs_le (by rw [eps_eq]; norm_num) hsize1).trans (by norm_num)
    · exact (hoff3.abs_le (by rw [eps_eq]; norm_num) hsize3).trans (by norm_num)
  have hsum := off_logSum hlog hacc hall ⟨_, List.mem_cons_self .., hfin1⟩ (by norm_num)
    (by norm_num)
  rw [← logTotal_eq] at hsum
  have hpowers : Near (2400000 * eps)
      ([(E.logTerms p).proximity, (E.logTerms p).folding, (E.logTerms p).query].map
        Binary64.power).sum p.exactTotal := by
    simp only [List.map_cons, List.map_nil, List.sum_cons, List.sum_nil, add_zero]
    rw [← add_assoc]
    exact ((hnear1.mono (by linarith)).add (hnear2.mono (by linarith))).add hnear3
  have hdiff := hpowers.abs_logb_sub_le h.exactTotal_pos
  refine (abs_sub_le _ _ _).trans ((add_le_add hsum hdiff).trans ?_)
  rw [← add_mul]
  exact mul_le_mul_of_nonneg_right (by norm_num) heps.le

end Evaluable

end Elementary

end FriBound
