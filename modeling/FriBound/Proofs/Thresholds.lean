import FriBound.Proofs.ArityOrder

/-!
# Which exponents are out of range

The evaluation of the bound forms three powers of two and a sum of such powers before any of its
terms, and checks each. So it is up to the exponents which of the four checks is the first to fail:
a power is finite up to the exponent 1023, the square of the domain size has twice the exponent, and
one power that is infinite makes the sum infinite.

The doubling is done in words of 32 bits and stops at their ends. It does no harm: what is out of
range by then is out of the range of the format as well, and the power of two is infinite or zero
either way.

## Main definitions

* `Elementary.Thresholds` — which exponents fail which check

## Main results

* `Elementary.firstOverflow_eq` — the first check that fails, by the exponents
* `Elementary.termsAt_twice` — the doubling is as good as exact
* `Elementary.thresholds` — both for the evaluation of the terms
-/

namespace FriBound

namespace Params

open Scalar

variable {α : Type} {p : Params α}

/-! ### The doubled exponent -/

/-- Doubling is exact unless it leaves the words, and then it stops at the end it has reached. -/
theorem codewordSquareBits_cases (p : Params α) :
    p.codewordSquareBits = 2 * p.codewordSizeBits.toInt ∨
      (1024 ≤ p.codewordSquareBits ∧ 1024 ≤ 2 * p.codewordSizeBits.toInt) ∨
      (p.codewordSquareBits ≤ -1075 ∧ 2 * p.codewordSizeBits.toInt ≤ -1075) := by
  unfold codewordSquareBits
  omega

theorem codewordSquareBits_le_iff :
    p.codewordSquareBits ≤ 1023 ↔ p.codewordSizeBits.toInt ≤ 511 := by
  unfold codewordSquareBits
  omega

variable [Scalar α]

/-- The exponent enters as a power of two only. -/
theorem termsAt_congr {n k : Int} (h : (exp2 (ofInt n) : α) = exp2 (ofInt k)) :
    p.termsAt n = p.termsAt k := by
  rw [termsAt, h]
  rfl

/-! ### The first check that fails -/

/-- One check before the others. -/
theorem find?_guarded_cons (what : Quantity) (x : α) (gs : List (Quantity × α)) :
    (((what, x) :: gs).find? fun g => !isFinite g.2).map Prod.fst =
      if isFinite x then (gs.find? fun g => !isFinite g.2).map Prod.fst else some what := by
  rw [List.find?_cons]
  cases isFinite x <;> rfl

/-- The first of the terms that is not finite, which are checked after the powers. -/
def termOverflow (p : Params α) : Option Quantity :=
  ((p.guarded.drop 4).find? fun g => !isFinite g.2).map Prod.fst

theorem termOverflow_cases {what : Quantity} (h : p.termOverflow = some what) :
    what = .proximity ∨ what = .folding ∨ what = .query := by
  obtain ⟨g, hg, rfl⟩ := Option.map_eq_some_iff.mp h
  have hmem := List.mem_of_find?_eq_some hg
  simp only [guarded, List.drop_succ_cons, List.drop_zero, List.mem_cons, List.not_mem_nil,
    or_false] at hmem
  rcases hmem with rfl | rfl | rfl <;> simp

theorem firstOverflow_eq : p.firstOverflow =
    if isFinite (exp2 (ofInt p.codewordSizeBits.toInt) : α) then
      if isFinite (exp2 (ofInt p.codewordSquareBits) : α) then
        if isFinite (exp2 (ofInt p.fieldSizeBits.toInt) : α) then
          if isFinite p.aritySum then p.termOverflow else some .aritySum
        else some .fieldSize
      else some .codewordSizeSquared
    else some .codewordSize := by
  rw [firstOverflow, guarded]
  iterate 4 rw [find?_guarded_cons]
  rfl

end Params

namespace Elementary

open Binary64

variable {E : Elementary} {p : Params Binary64}

@[inherit_doc Params.termsAt]
abbrev termsAt (E : Elementary) (squareBits : Int) (p : Params Binary64) :
    Except (BoundError Binary64) (Terms Binary64) :=
  letI := E.scalar; p.termsAt squareBits

@[inherit_doc Params.termOverflow]
abbrev termOverflow (E : Elementary) (p : Params Binary64) : Option Quantity :=
  letI := E.scalar; p.termOverflow

/-- **The doubling is as good as exact**, for every exponent and every `m`. -/
theorem termsAt_twice (h : E.WholeExpLaws) (p : Params Binary64) :
    E.termsAt p.codewordSquareBits p = E.termsAt (2 * p.codewordSizeBits.toInt) p := by
  refine @Params.termsAt_congr _ p E.scalar _ _ ?_
  show E.exp2 (ofInt p.codewordSquareBits) = E.exp2 (ofInt (2 * p.codewordSizeBits.toInt))
  rcases p.codewordSquareBits_cases with heq | ⟨hlarge, hlarge'⟩ | ⟨hsmall, hsmall'⟩
  · rw [heq]
  · rw [h.exp2_large _ hlarge, h.exp2_large _ hlarge']
  · rw [h.exp2_small _ hsmall, h.exp2_small _ hsmall']

/-! ### The thresholds -/

/-- **The first check that fails, by the exponents.** -/
theorem firstOverflow_eq (h : E.WholeExpLaws) (p : Params Binary64) : E.firstOverflow p =
    if 1024 ≤ p.codewordSizeBits.toInt then some .codewordSize
    else if 512 ≤ p.codewordSizeBits.toInt then some .codewordSizeSquared
    else if 1024 ≤ p.fieldSizeBits.toInt then some .fieldSize
    else if (E.aritySum p).isFinite then E.termOverflow p else some .aritySum := by
  let := E.scalar
  have hsize : Scalar.isFinite (Scalar.exp2 (Scalar.ofInt p.codewordSizeBits.toInt) : Binary64)
      = decide (p.codewordSizeBits.toInt ≤ 1023) := h.isFinite_exp2 _
  have hsquare : Scalar.isFinite (Scalar.exp2 (Scalar.ofInt p.codewordSquareBits) : Binary64)
      = decide (p.codewordSizeBits.toInt ≤ 511) :=
    (h.isFinite_exp2 _).trans (decide_eq_decide.mpr Params.codewordSquareBits_le_iff)
  have hfield : Scalar.isFinite (Scalar.exp2 (Scalar.ofInt p.fieldSizeBits.toInt) : Binary64)
      = decide (p.fieldSizeBits.toInt ≤ 1023) := h.isFinite_exp2 _
  have hsum : Scalar.isFinite p.aritySum = (E.aritySum p).isFinite := rfl
  refine Params.firstOverflow_eq.trans ?_
  rw [hsize, hsquare, hfield, hsum]
  simp only [decide_eq_true_eq]
  split_ifs <;> first | rfl | omega

/-- Once `m` has passed its checks, the terms fail where the first check does. -/
theorem terms_eq_overflow_iff_firstOverflow (hfin : p.m.isFinite = true)
    (hzero : ¬∃ s, p.m = .zero s) {what : Quantity} :
    E.terms p = .error (.overflow what) ↔ E.firstOverflow p = some what := by
  rcases terms_cases E p with ⟨hz, -⟩ | ⟨-, hf, -⟩ | ⟨-, -, -, w, -, hw, ht⟩ | ⟨-, -, -, hw, ht⟩
  · exact absurd hz hzero
  · exact absurd (hfin.symm.trans hf) (by simp)
  · simp [ht, hw]
  · simp [ht, hw]

/-- Which exponents fail which check of a power. -/
structure Thresholds (E : Elementary) (p : Params Binary64) : Prop where
  /-- The domain has a size, -/
  codewordSize_iff : E.terms p = .error (.overflow .codewordSize) ↔
    1024 ≤ p.codewordSizeBits.toInt
  /-- the size has a square, -/
  codewordSizeSquared_iff : E.terms p = .error (.overflow .codewordSizeSquared) ↔
    512 ≤ p.codewordSizeBits.toInt ∧ p.codewordSizeBits.toInt ≤ 1023
  /-- the field has a size, -/
  fieldSize_iff : E.terms p = .error (.overflow .fieldSize) ↔
    p.codewordSizeBits.toInt ≤ 511 ∧ 1024 ≤ p.fieldSizeBits.toInt
  /-- and no round folds too many points, in this order. -/
  aritySum_of_large : p.codewordSizeBits.toInt ≤ 511 → p.fieldSizeBits.toInt ≤ 1023 →
    (∃ a ∈ p.arityBits, 1024 ≤ a.toNat) → E.terms p = .error (.overflow .aritySum)
  /-- The names under which these are reported. -/
  names : [Quantity.codewordSize, .codewordSizeSquared, .fieldSize, .aritySum].map Quantity.name =
    ["2^codeword_size_bits", "2^(2 * codeword_size_bits)", "2^field_size_bits",
      "sum of 2^arity_bits"]

/-- **The thresholds of the evaluation**, for a finite `m` that is not zero. Whatever `m` is, the
exponent of the domain size might as well be doubled exactly. -/
theorem thresholds (h : E.WholeExpLaws) (p : Params Binary64) :
    (p.m.isFinite = true → (¬∃ s, p.m = .zero s) → E.Thresholds p) ∧
      E.terms p = E.termsAt p.codewordSquareBits p ∧
      E.termsAt p.codewordSquareBits p = E.termsAt (2 * p.codewordSizeBits.toInt) p := by
  refine ⟨fun hfin hzero => ?_, rfl, termsAt_twice h p⟩
  have hterms : ∀ what, E.terms p = .error (.overflow what) ↔ E.firstOverflow p = some what :=
    fun what => terms_eq_overflow_iff_firstOverflow hfin hzero
  -- A term that fails is reported as what it is, and not as a power.
  have hlater : ∀ {what}, E.termOverflow p = some what →
      what = .proximity ∨ what = .folding ∨ what = .query := @Params.termOverflow_cases _ p E.scalar
  constructor
  · rw [hterms, firstOverflow_eq h]
    split_ifs <;> grind
  · rw [hterms, firstOverflow_eq h]
    split_ifs <;> grind
  · rw [hterms, firstOverflow_eq h]
    split_ifs <;> grind
  · rintro hc hf ⟨a, ha, hlarge⟩
    have hsum : (E.aritySum p).isFinite = false := by
      rw [h.aritySum_eq_inf ha hlarge]
      rfl
    rw [hterms, firstOverflow_eq h, if_neg (by omega), if_neg (by omega), if_neg (by omega), hsum]
    rfl
  · rfl

/-- The exponents at the ends of their words. -/
theorem thresholds_quarterCode :
    tabulated.terms { quarterCode with codewordSizeBits := Int32.maxValue }
        = .error (.overflow .codewordSize) ∧
      tabulated.terms { quarterCode with codewordSizeBits := Int32.minValue }
        = tabulated.termsAt (-2 ^ 32) { quarterCode with codewordSizeBits := Int32.minValue } := by
  have hexp := expLaws_tabulated.wholeExpLaws
  constructor
  · have hthresholds := (thresholds hexp
      { quarterCode with codewordSizeBits := Int32.maxValue }).1 isFinite_one quarterCode_m_ne_zero
    exact hthresholds.codewordSize_iff.mpr (by decide)
  · obtain ⟨-, hterms, htwice⟩ :=
      thresholds hexp { quarterCode with codewordSizeBits := Int32.minValue }
    exact hterms.trans htwice

end Elementary

end FriBound
