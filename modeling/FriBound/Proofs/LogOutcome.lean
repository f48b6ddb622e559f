import FriBound.LogBound
import FriBound.Proofs.WholeElementary
import FriBound.Message

/-!
# How the evaluation in logarithms ends

Sizes enter this evaluation by their exponents, which are machine words, so the logarithms of the
terms are small numbers. There are two ways out of range, and both are in `m`: a large `m` has no
double, and the double of a small one has no reciprocal. The second matters only if there are
queries. Without folding rounds the folding term vanishes and has the logarithm minus infinity,
which the sum of powers takes in.

## Main definitions

* `Binary64.Refused`, `Binary64.Positive` — what `m` may be, apart from a zero
* `Elementary.LogOutcome` — how `logBound` and `securityBits` end

## Main results

* `Elementary.logOutcome` — how the evaluation ends for any parameters
-/

namespace FriBound

/-! ### The checks -/

namespace Params

open Scalar

variable {α : Type} [Scalar α] {p : Params α}

theorem logBound_of_zero (h : same p.m (ofInt 0) = true) :
    p.logBound = .error .divisionByZero :=
  if_pos h

theorem logBound_of_refused (h : same p.m (ofInt 0) = false)
    (hm : isFinite p.m = false ∨ lt p.m (ofInt 0) = true) :
    p.logBound = .error (.invalid (.noLogarithm p.m)) := by
  have hrefused : (!isFinite p.m || lt p.m (ofInt 0)) = true := by
    rcases hm with hm | hm <;> simp [hm]
  rw [logBound, h, if_neg Bool.false_ne_true, if_pos hrefused]

theorem logBound_of_positive (h : same p.m (ofInt 0) = false) (hm : isFinite p.m = true)
    (hlt : lt p.m (ofInt 0) = false) :
    p.logBound = if isNaN p.logTerms.total ||
        (!isFinite p.logTerms.total && lt (ofInt 0) p.logTerms.total)
      then .error (.overflow .logTotal) else .ok p.logTerms.total := by
  rw [logBound, h, hm, hlt]
  rfl

theorem securityBits_of_error {e : BoundError α} (h : p.logBound = .error e) :
    p.securityBits = .error e := by
  rw [securityBits, h]
  rfl

theorem securityBits_of_ok {l : α} (h : p.logBound = .ok l) : p.securityBits = .ok (-l) := by
  rw [securityBits, h]
  rfl

end Params

/-! ### What `m` may be -/

namespace Binary64

variable {x : Binary64}

/-- A NaN, an infinity or a negative number. -/
def Refused (x : Binary64) : Prop := x.isFinite = false ∨ x.lt (zero false) = true

/-- A finite number above zero. -/
def Positive (x : Binary64) : Prop := x.isFinite = true ∧ (zero false).lt x = true

/-- Zeros are neither refused nor positive, and nothing is both. -/
theorem Refused.not_zero (h : Refused x) : ¬∃ s, x = zero s := by
  rintro ⟨s, rfl⟩
  rcases h with hinf | hneg
  · cases hinf
  · exact Bool.false_ne_true ((lt_zero_zero s false).symm.trans hneg)

@[inherit_doc Refused.not_zero]
theorem Positive.not_zero (h : Positive x) : ¬∃ s, x = zero s := by
  rintro ⟨s, rfl⟩
  exact Bool.false_ne_true ((lt_zero_zero false s).symm.trans h.2)

@[inherit_doc Refused.not_zero]
theorem Positive.not_refused (h : Positive x) : ¬Refused x := by
  rintro (hinf | hneg)
  · exact Bool.false_ne_true (hinf.symm.trans h.1)
  · exact Bool.false_ne_true ((lt_asymm hneg).symm.trans h.2)

theorem zero_or_refused_or_positive (x : Binary64) :
    (∃ s, x = zero s) ∨ Refused x ∨ Positive x := by
  by_cases hzero : ∃ s, x = zero s
  · exact Or.inl hzero
  by_cases hrefused : Refused x
  · exact Or.inr (Or.inl hrefused)
  obtain ⟨hfin, hlt⟩ := not_or.mp hrefused
  rw [Bool.not_eq_false] at hfin
  exact Or.inr (Or.inr ⟨hfin, pos_of_finite hfin (Bool.eq_false_iff.mpr hlt) hzero⟩)

end Binary64

namespace Elementary

open Binary64

variable (E : Elementary)

/-- The evaluations in logarithms, with the elementary functions `E`. -/
abbrev logAlpha (p : Params Binary64) : Binary64 :=
  letI := E.scalar; p.logAlpha

@[inherit_doc logAlpha]
abbrev logTerms (p : Params Binary64) : LogTerms Binary64 :=
  letI := E.scalar; p.logTerms

@[inherit_doc logAlpha]
abbrev logTotal (p : Params Binary64) : Binary64 :=
  letI := E.scalar; p.logTerms.total

@[inherit_doc logAlpha]
abbrev logBound (p : Params Binary64) : Except (BoundError Binary64) Binary64 :=
  letI := E.scalar; p.logBound

@[inherit_doc logAlpha]
abbrev securityBits (p : Params Binary64) : Except (BoundError Binary64) Binary64 :=
  letI := E.scalar; p.securityBits

variable {E} {p : Params Binary64}

/-! ### The logarithms of the terms -/

theorem within_int32 (n : Int32) : Within 31 (.ofInt n.toInt) := by
  have := n.le_toInt
  have := n.toInt_lt
  exact Within.ofInt (by omega)

theorem within_uint64 (n : UInt64) : Within 64 (.ofInt n.toNat) := by
  have := n.toNat_lt
  exact Within.ofInt (by omega)

theorem within_one : Within 0 (ofInt 1) := Within.ofInt (by decide)

/-- The logarithm of a number that is not negative, after a positive one of at most one is added. -/
theorem within_log2_add (h : E.LogLaws) {x c : Binary64} (hx : x.isFinite = true)
    (hx' : zero false ≤ x) (hc : (zero false).lt c = true) (hc' : Within 0 c) :
    Within 11 (E.log2 (x + c)) := by
  have hcfin := hc'.isFinite (by decide)
  have hle : c ≤ x + c := (le_add_of_nonneg hcfin hx hx').2
  exact h.within_log2 (isFinite_add_of_within hx hc' (by decide)) (lt_of_lt_of_le hc hle)

/-- The proximity term always has a logarithm. -/
theorem within_proximity (h : E.LogLaws) (hm : p.m.isFinite = true)
    (hpos : (zero false).lt p.m = true) : Within 36 (E.logTerms p).proximity := by
  have hhalf : Within 0 (ofHalves 1) := Within.ofHalves (by decide)
  have hlog := within_log2_add h hm (le_of_lt hpos) half_pos hhalf
  have hseven : Within 3 (.ofInt 7) := Within.ofInt (by decide)
  have htwo : Within 1 (.ofInt 2) := Within.ofInt (by decide)
  have hhalves : Within 1 (ofHalves 3) := Within.ofHalves (by decide)
  have hmult := hseven.mul hlog (e := 14) (by decide)
  have hsize := htwo.mul (within_int32 p.codewordSizeBits) (e := 32) (by decide)
  have hrate := hhalves.mul (within_int32 p.rateBits) (e := 32) (by decide)
  have hsum := hmult.add hsize (e := 33) (by decide)
  have hdiff := hsum.sub within_one (e := 34) (by decide)
  have hrated := hdiff.add hrate (e := 35) (by decide)
  exact hrated.sub (within_int32 p.fieldSizeBits) (by decide)

theorem within_halfRate (p : Params Binary64) :
    Within 31 (ofHalves 1 * .ofInt p.rateBits.toInt) :=
  Within.mul (a := 0) (Within.ofHalves (by decide)) (within_int32 p.rateBits)
    (by decide)

/-- The logarithm of the factor that is made of the size and of the rate. -/
theorem within_sizeLog (h : E.LogLaws) (n : Int32) :
    Within 32 (E.logSum [.ofInt n.toInt, .ofInt 0]) := by
  have hzero : Within 31 (.ofInt 0) := Within.ofInt (by decide)
  have hall : ∀ x ∈ [Binary64.ofInt n.toInt, .ofInt 0], x = .inf true ∨ Within 31 x := by
    simp [within_int32 n, hzero]
  exact within_logSum h (by decide) hall ⟨_, List.mem_cons_self .., within_int32 n⟩

/-- The logarithm of the sum of the arities, if there are any. -/
theorem within_arityLog (h : E.LogLaws) (hne : p.arityBits ≠ []) :
    Within 65 (E.logSum (p.arityBits.map fun a => .ofInt a.toNat)) := by
  have hall : ∀ x ∈ p.arityBits.map fun a => Binary64.ofInt a.toNat, Within 64 x := by
    intro x hx
    obtain ⟨a, -, rfl⟩ := List.mem_map.mp hx
    exact within_uint64 a
  obtain ⟨a, ha⟩ := List.exists_mem_of_ne_nil _ hne
  refine within_logSum h (by decide) (fun x hx => Or.inr (hall x hx)) ⟨_, ?_, within_uint64 a⟩
  exact List.mem_map_of_mem ha

/-- The logarithm of the folding term without the arities and the field. -/
def foldingHead (E : Elementary) (p : Params Binary64) : Binary64 :=
  E.log2 (ofInt 2 * p.m + ofInt 1) + E.logSum [.ofInt p.codewordSizeBits.toInt, .ofInt 0]
    + ofHalves 1 * .ofInt p.rateBits.toInt

theorem folding_eq : (E.logTerms p).folding = E.foldingHead p
    + E.logSum (p.arityBits.map fun a => .ofInt a.toNat) - .ofInt p.fieldSizeBits.toInt :=
  rfl

theorem within_foldingHead (h : E.LogLaws) (hm : (ofInt 2 * p.m).isFinite = true)
    (hpos : zero false ≤ ofInt 2 * p.m) : Within 34 (E.foldingHead p) := by
  have hsum := (within_log2_add h hm hpos one_pos within_one).add
    (within_sizeLog h p.codewordSizeBits) (e := 33) (by decide)
  exact hsum.add (within_halfRate p) (by decide)

theorem foldingHead_of_inf (h : E.LogLaws) (hm : ofInt 2 * p.m = inf false) :
    E.foldingHead p = inf false := by
  have hsize := (within_sizeLog h p.codewordSizeBits).isFinite (by decide)
  have hrate := (within_halfRate p).isFinite (by decide)
  rw [foldingHead, hm, inf_add _ (within_one.isFinite (by decide)), h.log2_inf, inf_add _ hsize,
    inf_add _ hrate]

theorem within_folding (h : E.LogLaws) (hm : (ofInt 2 * p.m).isFinite = true)
    (hpos : zero false ≤ ofInt 2 * p.m) (hne : p.arityBits ≠ []) :
    Within 67 (E.logTerms p).folding := by
  have hsum := (within_foldingHead h hm hpos).add (within_arityLog h hne) (e := 66) (by decide)
  exact hsum.sub (within_int32 p.fieldSizeBits) (by decide)

/-- Without folding rounds the logarithm is minus infinity, unless it gets lost. -/
theorem folding_of_nil (h : E.LogLaws) (hm : (ofInt 2 * p.m).isFinite = true)
    (hpos : zero false ≤ ofInt 2 * p.m) (hnil : p.arityBits = []) :
    (E.logTerms p).folding = inf true := by
  have hhead := (within_foldingHead h hm hpos).isFinite (by decide)
  rw [folding_eq, hnil, List.map_nil, logSum_nil, add_inf _ hhead,
    inf_sub _ ((within_int32 _).isFinite (by decide))]

/-- A double that is out of range takes the folding term with it. -/
theorem folding_of_inf (h : E.LogLaws) (hm : ofInt 2 * p.m = inf false) :
    (E.logTerms p).folding = if p.arityBits = [] then nan else inf false := by
  have hfield := (within_int32 p.fieldSizeBits).isFinite (by decide)
  rw [folding_eq, foldingHead_of_inf h hm]
  split
  · rw [‹p.arityBits = []›, List.map_nil, logSum_nil, inf_add_neg_inf]
    exact nan_add _
  · rw [inf_add _ ((within_arityLog h ‹_›).isFinite (by decide)), inf_sub _ hfield]

theorem logAlpha_eq : E.logAlpha p =
    E.log2 (ofInt 1 + ofInt 1 / (ofInt 2 * p.m)) - ofHalves 1 * .ofInt p.rateBits.toInt := by
  unfold logAlpha Params.logAlpha
  rfl

theorem within_logAlpha (h : E.LogLaws) (hr : (ofInt 1 / (ofInt 2 * p.m)).isFinite = true)
    (hpos : zero false ≤ ofInt 1 / (ofInt 2 * p.m)) : Within 32 (E.logAlpha p) := by
  have hlog := within_log2_add h hr hpos one_pos within_one
  rw [add_comm hr (within_one.isFinite (by decide))] at hlog
  exact hlog.sub (within_halfRate p) (by decide)

theorem logAlpha_of_inf (h : E.LogLaws) (hr : ofInt 1 / (ofInt 2 * p.m) = inf false) :
    E.logAlpha p = inf false := by
  have hrate := (within_halfRate p).isFinite (by decide)
  rw [logAlpha_eq, hr, add_inf _ (within_one.isFinite (by decide)), h.log2_inf, inf_sub _ hrate]

theorem query_eq : (E.logTerms p).query =
    if p.numQueries = 0 then ofInt 0 else ofInt p.numQueries.toNat * E.logAlpha p :=
  rfl

theorem within_query (h : E.LogLaws) (hpos : zero false ≤ ofInt 1 / (ofInt 2 * p.m))
    (hr : p.numQueries = 0 ∨ (ofInt 1 / (ofInt 2 * p.m)).isFinite = true) :
    Within 96 (E.logTerms p).query := by
  have hzero : Within 96 (.ofInt 0) := Within.ofInt (by decide)
  rw [query_eq]
  split
  · exact hzero
  · exact (within_uint64 _).mul (within_logAlpha h (hr.resolve_left ‹_›) hpos) (by decide)

theorem query_of_inf (h : E.LogLaws) (hq : p.numQueries ≠ 0)
    (hr : ofInt 1 / (ofInt 2 * p.m) = inf false) : (E.logTerms p).query = inf false := by
  have hqueries : ofInt 1 ≤ ofInt p.numQueries.toNat := by
    refine ofInt_le_ofInt ?_
    have : p.numQueries.toNat ≠ 0 := by
      intro h0
      exact hq (UInt64.toNat_inj.mp h0)
    omega
  rw [query_eq, if_neg hq, logAlpha_of_inf h hr]
  exact mul_inf_of_pos ((within_uint64 _).isFinite (by decide)) (lt_of_lt_of_le one_pos hqueries)

/-! ### The outcome -/

/-- The two ways in which a positive `m` leads out of range. -/
def LogOverflow (p : Params Binary64) : Prop :=
  ofInt 2 * p.m = inf false ∨ p.numQueries ≠ 0 ∧ ofInt 1 / (ofInt 2 * p.m) = inf false

theorem logTotal_eq : E.logTotal p =
    E.logSum [(E.logTerms p).proximity, (E.logTerms p).folding, (E.logTerms p).query] :=
  rfl

/-- The double of a positive number and its reciprocal. -/
theorem twice_spec (hm : p.m.isFinite = true) (hpos : (zero false).lt p.m = true) :
    (zero false).lt (ofInt 2 * p.m) = true ∧ zero false ≤ ofInt 1 / (ofInt 2 * p.m) :=
  ⟨twice_pos hm hpos, zero_le_recip (twice_pos hm hpos)⟩

/-- In range, the total is a number of moderate size. -/
theorem within_logTotal (h : E.LogLaws) (hm : p.m.isFinite = true)
    (hpos : (zero false).lt p.m = true) (hin : ¬LogOverflow p) : Within 97 (E.logTotal p) := by
  obtain ⟨htwice, hrecip⟩ := twice_spec hm hpos
  have hfin : (ofInt 2 * p.m).isFinite = true := by
    cases hfin : (ofInt 2 * p.m).isFinite with
    | true => rfl
    | false => exact absurd (Or.inl (eq_inf_of_nonneg (le_of_lt htwice) hfin)) hin
  have hquery : p.numQueries = 0 ∨ (ofInt 1 / (ofInt 2 * p.m)).isFinite = true := by
    by_cases hq : p.numQueries = 0
    · exact Or.inl hq
    · cases hr : (ofInt 1 / (ofInt 2 * p.m)).isFinite with
      | true => exact Or.inr rfl
      | false => exact absurd (Or.inr ⟨hq, eq_inf_of_nonneg hrecip hr⟩) hin
  have hproximity := (within_proximity h hm hpos).mono (e := 96) (by decide)
  have hfolding : (E.logTerms p).folding = inf true ∨ Within 96 (E.logTerms p).folding := by
    by_cases hnil : p.arityBits = []
    · exact Or.inl (folding_of_nil h hfin (le_of_lt htwice) hnil)
    · exact Or.inr ((within_folding h hfin (le_of_lt htwice) hnil).mono (by decide))
  rw [logTotal_eq]
  refine within_logSum h (by decide) ?_ ⟨_, List.mem_cons_self .., hproximity⟩
  simp [hproximity, hfolding, within_query h hrecip hquery]

/-- Out of range, the total is infinite or is not a number. -/
theorem logTotal_of_overflow (h : E.LogLaws) (hm : p.m.isFinite = true)
    (hpos : (zero false).lt p.m = true) (hout : LogOverflow p) :
    E.logTotal p = inf false ∨ E.logTotal p = nan := by
  rw [logTotal_eq]
  by_cases hquery : p.numQueries ≠ 0 ∧ ofInt 1 / (ofInt 2 * p.m) = inf false
  · exact Or.inl (logSum_of_inf_mem (by simp [query_of_inf h hquery.1 hquery.2]))
  have htwice : ofInt 2 * p.m = inf false := hout.resolve_right hquery
  have hfolding := folding_of_inf h htwice
  split at hfolding
  · -- The sum of powers meets a NaN, and a finite number as well.
    have hproximity := within_proximity h hm hpos
    have hrecip : ofInt 1 / (ofInt 2 * p.m) = zero false := by rw [htwice, one_div_inf]
    have hq : Within 96 (E.logTerms p).query :=
      within_query h (twice_spec hm hpos).2 (Or.inr (by rw [hrecip]; rfl))
    have hne : ∀ {x : Binary64} {e : Nat}, e < 1024 → Within e x → x ≠ inf false := by
      rintro x e he hx rfl
      exact Bool.false_ne_true (hx.isFinite he)
    refine Or.inr (logSum_of_nan_mem h.sumLaws.toSpecialValues (by simp [hfolding]) ?_
      ⟨_, List.mem_cons_self .., hproximity.isFinite (by decide)⟩)
    simp [hfolding, hne (by decide) hproximity, hne (by decide) hq]
  · exact Or.inl (logSum_of_inf_mem (by simp [hfolding]))

/-- What `m` decides: it is a zero, or it is refused, or it is positive and the total is checked. No
property of the elementary functions enters. -/
theorem logBound_checks (E : Elementary) (p : Params Binary64) :
    ((∃ s, p.m = zero s) ∧ E.logBound p = .error .divisionByZero) ∨
    (Refused p.m ∧ E.logBound p = .error (.invalid (.noLogarithm p.m))) ∨
    (Positive p.m ∧ E.logBound p = if (E.logTotal p).isNaN ||
          (!(E.logTotal p).isFinite && (zero false).lt (E.logTotal p))
        then .error (.overflow .logTotal) else .ok (E.logTotal p)) := by
  let := E.scalar
  have hsame : (¬∃ s, p.m = zero s) → p.m.same (ofInt 0) = false :=
    fun hne => Bool.eq_false_iff.mpr fun h => hne (same_zero_iff.mp h)
  rcases zero_or_refused_or_positive p.m with hzero | hrefused | hpos
  · exact Or.inl ⟨hzero, Params.logBound_of_zero (same_zero_iff.mpr hzero)⟩
  · refine Or.inr (Or.inl ⟨hrefused, Params.logBound_of_refused (hsame hrefused.not_zero) ?_⟩)
    rw [Refused, ← ofInt_zero] at hrefused
    exact hrefused
  · have hlt : p.m.lt (zero false) = false :=
      Bool.eq_false_iff.mpr fun h => hpos.not_refused (Or.inr h)
    have hbound : p.logBound = if (E.logTotal p).isNaN ||
          (!(E.logTotal p).isFinite && (ofInt 0).lt (E.logTotal p))
        then .error (.overflow .logTotal) else .ok (E.logTotal p) :=
      Params.logBound_of_positive (p := p) (hsame hpos.not_zero) hpos.1
        (by rwa [← ofInt_zero] at hlt)
    rw [ofInt_zero] at hbound
    exact Or.inr (Or.inr ⟨hpos, hbound⟩)

/-- A logarithm that exists is that of the sum, for a positive `m`, and it is neither a NaN nor plus
infinity. -/
theorem logTotal_of_logBound {l : Binary64} (hl : E.logBound p = .ok l) :
    p.m.isFinite = true ∧ (zero false).lt p.m = true ∧ l = E.logTotal p ∧ l ≠ nan ∧
      l ≠ inf false := by
  rcases logBound_checks E p with ⟨-, hb⟩ | ⟨-, hb⟩ | ⟨⟨hfin, hpos⟩, hb⟩
  · cases hb.symm.trans hl
  · cases hb.symm.trans hl
  · rw [hl] at hb
    split at hb
    · cases hb
    · rename_i hnot
      cases hb
      refine ⟨hfin, hpos, rfl, fun h => hnot ?_, fun h => hnot ?_⟩
      · rw [h]
        rfl
      · rw [h, zero_lt_inf]
        rfl

/-- The four ways in which the evaluation ends. -/
theorem logBound_cases (h : E.LogLaws) (p : Params Binary64) :
    ((∃ s, p.m = zero s) ∧ E.logBound p = .error .divisionByZero) ∨
    (Refused p.m ∧ E.logBound p = .error (.invalid (.noLogarithm p.m))) ∨
    (Positive p.m ∧ LogOverflow p ∧ E.logBound p = .error (.overflow .logTotal)) ∨
    (Positive p.m ∧ ¬LogOverflow p ∧ Within 97 (E.logTotal p) ∧
      E.logBound p = .ok (E.logTotal p)) := by
  rcases logBound_checks E p with hzero | hrefused | ⟨hpos, hbound⟩
  · exact Or.inl hzero
  · exact Or.inr (Or.inl hrefused)
  by_cases hout : LogOverflow p
  · refine Or.inr (Or.inr (Or.inl ⟨hpos, hout, ?_⟩))
    have hinf : ((inf false).isNaN ||
        (!(inf false).isFinite && (zero false).lt (inf false))) = true := by
      simp [isFinite, zero_lt_inf]
    have hnan : (nan.isNaN || (!nan.isFinite && (zero false).lt nan)) = true := rfl
    rcases logTotal_of_overflow h hpos.1 hpos.2 hout with ht | ht
    · rw [ht, if_pos hinf] at hbound
      exact hbound
    · rw [ht, if_pos hnan] at hbound
      exact hbound
  · have hwithin := within_logTotal h hpos.1 hpos.2 hout
    refine Or.inr (Or.inr (Or.inr ⟨hpos, hout, hwithin, ?_⟩))
    have htotal := hwithin.isFinite (by decide)
    rw [htotal, isNaN_eq_false htotal] at hbound
    exact hbound

/-- A logarithm that exists is the sum of powers, and nothing has led out of range. -/
theorem logBound_eq_ok_iff_logTotal (h : E.LogLaws) {l : Binary64} : E.logBound p = .ok l ↔
    p.m.isFinite = true ∧ (zero false).lt p.m = true ∧ ¬LogOverflow p ∧ l = E.logTotal p := by
  rw [← and_assoc]
  change _ ↔ Positive p.m ∧ _
  rcases logBound_cases h p with ⟨hz, hb⟩ | ⟨hr, hb⟩ | ⟨-, ho, hb⟩ | ⟨hp, ho, -, hb⟩
  · have hn : ¬Positive p.m := fun hp => hp.not_zero hz
    simp [hb, hn]
  · have hn : ¬Positive p.m := fun hp => hp.not_refused hr
    simp [hb, hn]
  · simp [hb, ho]
  · simp [hb, hp, ho, eq_comm]

/-- How the evaluation in logarithms ends. -/
structure LogOutcome (E : Elementary) (p : Params Binary64) : Prop where
  /-- A zero `m`, of either sign, is a division by zero. -/
  logBound_eq_divisionByZero_iff : E.logBound p = .error .divisionByZero ↔ ∃ s, p.m = zero s
  /-- An `m` that is NaN, infinite or negative is refused. -/
  logBound_eq_invalid_iff : ∀ why, E.logBound p = .error (.invalid why) ↔
    (p.m.isFinite = false ∨ p.m.lt (zero false) = true) ∧ why = .noLogarithm p.m
  /-- A positive finite `m` leads out of range if its double does, or if there are queries and the
  reciprocal of the double does. -/
  logBound_eq_overflow_iff : ∀ what, E.logBound p = .error (.overflow what) ↔
    p.m.isFinite = true ∧ (zero false).lt p.m = true ∧ LogOverflow p ∧ what = .logTotal
  /-- In every other case there is a result. -/
  logBound_eq_ok_iff : ∀ l, E.logBound p = .ok l ↔
    p.m.isFinite = true ∧ (zero false).lt p.m = true ∧ ¬LogOverflow p ∧ l = E.logTotal p
  /-- And it is a finite number. -/
  isFinite_of_logBound : ∀ l, E.logBound p = .ok l → l.isFinite = true
  logTotal_name : Quantity.logTotal.name = "log2 of soundness error"
  /-- The bits of security come out in the same way, with the opposite sign. -/
  securityBits_eq : E.securityBits p = match E.logBound p with
    | .error e => .error e
    | .ok l => .ok (-l)
  isFinite_of_securityBits : ∀ b, E.securityBits p = .ok b → b.isFinite = true

/-- **How the evaluation in logarithms ends, for any parameters.** -/
theorem logOutcome (h : E.LogLaws) (p : Params Binary64) : E.LogOutcome p := by
  have hfinite : ∀ {l}, E.logBound p = .ok l → l.isFinite = true := by
    intro l hl
    rcases logBound_cases h p with ⟨-, hb⟩ | ⟨-, hb⟩ | ⟨-, -, hb⟩ | ⟨-, -, hwithin, hb⟩
    · simp [hb] at hl
    · simp [hb] at hl
    · simp [hb] at hl
    · rw [hb, Except.ok.injEq] at hl
      exact hl ▸ hwithin.isFinite (by decide)
  refine {
    logBound_eq_divisionByZero_iff := ?_
    logBound_eq_invalid_iff := ?_
    logBound_eq_overflow_iff := ?_
    logBound_eq_ok_iff := fun l => logBound_eq_ok_iff_logTotal h
    isFinite_of_logBound := ?_
    logTotal_name := rfl
    securityBits_eq := ?_
    isFinite_of_securityBits := ?_ }
  · rcases logBound_cases h p with ⟨hz, hb⟩ | ⟨hr, hb⟩ | ⟨hp, -, hb⟩ | ⟨hp, -, -, hb⟩
    · simp [hb, hz]
    · simp [hb, hr.not_zero]
    · simp [hb, hp.not_zero]
    · simp [hb, hp.not_zero]
  · intro why
    change _ ↔ Refused p.m ∧ _
    rcases logBound_cases h p with ⟨hz, hb⟩ | ⟨hr, hb⟩ | ⟨hp, -, hb⟩ | ⟨hp, -, -, hb⟩
    · have hn : ¬Refused p.m := fun hr => hr.not_zero hz
      simp [hb, hn]
    · simp [hb, hr, eq_comm]
    · simp [hb, hp.not_refused]
    · simp [hb, hp.not_refused]
  · intro what
    rw [← and_assoc]
    change _ ↔ Positive p.m ∧ _
    rcases logBound_cases h p with ⟨hz, hb⟩ | ⟨hr, hb⟩ | ⟨hp, ho, hb⟩ | ⟨-, ho, -, hb⟩
    · have hn : ¬Positive p.m := fun hp => hp.not_zero hz
      simp [hb, hn]
    · have hn : ¬Positive p.m := fun hp => hp.not_refused hr
      simp [hb, hn]
    · simp [hb, hp, ho, eq_comm]
    · simp [hb, ho]
  · exact fun l => hfinite
  · cases hb : E.logBound p with
    | error e => exact @Params.securityBits_of_error _ E.scalar p e hb
    | ok l => exact @Params.securityBits_of_ok _ E.scalar p l hb
  · intro b hb
    cases hl : E.logBound p with
    | error e =>
      have herror : E.securityBits p = .error e := @Params.securityBits_of_error _ E.scalar p e hl
      simp [herror] at hb
    | ok l =>
      have hok : E.securityBits p = .ok (-l) := @Params.securityBits_of_ok _ E.scalar p l hl
      rw [hok, Except.ok.injEq] at hb
      rw [← hb, isFinite_neg]
      exact hfinite hl

/-- A domain of one point at the rate `1 / 4`, with one round that folds nothing. Its terms are
one, two and one. -/
def pointCode : Params Binary64 where
  numFunctions := 1
  rateBits := 2
  codewordSizeBits := 0
  fieldSizeBits := 2
  m := ofHalves 1
  arityBits := [0]
  numRounds := 1
  numQueries := 1

theorem pointCode_logBound :
    whole.LogOutcome pointCode ∧ whole.logBound pointCode = .ok (ofInt 2) ∧
      whole.securityBits pointCode = .ok (ofInt (-2)) := by
  have hout := logOutcome logLaws_whole pointCode
  have hbound : whole.logBound pointCode = .ok (ofInt 2) := by
    refine (hout.logBound_eq_ok_iff _).mpr ⟨by decide +kernel, by decide +kernel, ?_, ?_⟩
    · unfold LogOverflow
      decide +kernel
    · decide +kernel
  refine ⟨hout, hbound, ?_⟩
  have hneg : -ofInt 2 = ofInt (-2) := by decide +kernel
  rw [hout.securityBits_eq, hbound]
  exact congrArg Except.ok hneg

end Elementary

end FriBound
