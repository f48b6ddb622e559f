import FriBound.Proofs.Monotone

/-!
# Smaller instances

An instance with a smaller domain, fewer rounds or rounds that fold less, and otherwise the same
numbers, has a bound that is not larger. The evaluation says so as well, last digits included, and
where it succeeds for the larger instance it succeeds for the smaller one.

The second part is not for free. A quotient that is undefined, or a difference of infinities, could
make the smaller instance fail alone. Two observations exclude this. The sizes of the larger
instance are checked to be finite, and those of the smaller one lie between zero and them. And a
divisor that is common to both cannot be zero or NaN, since the larger quotient is finite; it can be
infinite, and then both quotients are zero. So the parameters need not be valid, but for a positive
`m`.

## Main definitions

* `Params.NoLarger` — the order of instances

## Main results

* `Elementary.smaller_instance` — the terms and the bound of a smaller instance
-/

namespace FriBound

/-- The instance `p` is not larger than `p'`: its domain is not, and its schedule has the arities of
`p'` with some left out and others lowered. Everything else that enters the arithmetic is the
same. -/
structure Params.NoLarger {α : Type} (p p' : Params α) : Prop where
  rateBits_eq : p.rateBits = p'.rateBits
  m_eq : p.m = p'.m
  fieldSizeBits_eq : p.fieldSizeBits = p'.fieldSizeBits
  numQueries_eq : p.numQueries = p'.numQueries
  codewordSizeBits_le : p.codewordSizeBits.toInt ≤ p'.codewordSizeBits.toInt
  arityBits_le : List.SublistForall₂ (· ≤ ·) p.arityBits p'.arityBits

namespace Params.NoLarger

open Binary64 Elementary

variable {E : Elementary} {p p' : Params Binary64}

/-! ### What is the same -/

theorem m_le (h : p.NoLarger p') (hm : p.m.isFinite = true) : p.m ≤ p'.m :=
  h.m_eq ▸ le_refl (ne_nan_of_isFinite hm)

theorem rate_eq (h : p.NoLarger p') : (E.values p).rate = (E.values p').rate := by
  show E.exp2 (-ofInt p.rateBits.toInt) = E.exp2 (-ofInt p'.rateBits.toInt)
  rw [h.rateBits_eq]

theorem alpha_eq (h : p.NoLarger p') : (E.values p).alpha = (E.values p').alpha := by
  rw [alpha_formula, alpha_formula, h.rate_eq, h.m_eq]

theorem query_eq (h : p.NoLarger p') : (E.values p).query = (E.values p').query := by
  show E.queryPower (E.values p).alpha p.numQueries = E.queryPower (E.values p').alpha p'.numQueries
  rw [h.alpha_eq, h.numQueries_eq]

theorem denominator_eq (h : p.NoLarger p') : E.denominator p = E.denominator p' := by
  rw [denominator_formula, denominator_formula, h.rate_eq, h.fieldSizeBits_eq]

/-! ### The sizes -/

theorem size_mono (hexp : E.ExpLaws) {n k : Int} (hnk : n ≤ k) : E.size n ≤ E.size k := by
  rw [size, size, hexp.eq_twoPow, hexp.eq_twoPow]
  exact twoPow_mono hnk

theorem codewordSquareBits_le (h : p.NoLarger p') :
    p.codewordSquareBits ≤ p'.codewordSquareBits := by
  have hle := h.codewordSizeBits_le
  unfold Params.codewordSquareBits
  omega

theorem dominated_size (hexp : E.ExpLaws) {n k : Int} (hnk : n ≤ k)
    (hfin : (E.size k).isFinite = true) : Dominated (E.size n) (E.size k) :=
  ⟨hexp.nonneg n, size_mono hexp hnk, hfin⟩

theorem dominated_aritySum (h : p.NoLarger p') (hexp : E.ExpLaws)
    (hfin : (E.aritySum p').isFinite = true) : Dominated (E.aritySum p) (E.aritySum p') := by
  have hsizes : List.SublistForall₂ (· ≤ ·) (p.arityBits.map fun a => E.size a.toNat)
      (p'.arityBits.map fun a => E.size a.toNat) := by
    rw [List.sublistForall₂_map_left_iff, List.sublistForall₂_map_right_iff]
    obtain ⟨as, has, hsub⟩ := List.sublistForall₂_iff.mp h.arityBits_le
    refine List.sublistForall₂_iff.mpr ⟨as, has.imp ?_, hsub⟩
    intro a b hab
    exact size_mono hexp (Int.ofNat_le.mpr (UInt64.le_iff_toNat_le.mp hab))
  rw [aritySum_formula] at hfin
  rw [aritySum_formula, aritySum_formula]
  exact .foldl_add hsizes (sizes_nonneg hexp.nonneg _) (sizes_nonneg hexp.nonneg _) zero_le_neg_zero
    (le_refl (ne_nan_of_le zero_le_neg_zero).2) hfin

/-! ### The terms -/

section

variable (h : p.NoLarger p') (hexp : E.ExpLaws)
  (hpow : ∀ x, (zero false).lt x = true → zero false ≤ E.pow x (ofHalves 3))
  (hm : p.m.isFinite = true) (hm0 : (zero false).lt p.m = true)
  (hguarded : ∀ g ∈ E.guarded p', g.2.isFinite = true)

include h hexp hm hm0 hguarded

theorem dominated_folding : Dominated (E.values p).folding (E.values p').folding := by
  obtain ⟨hsize, -, -, hsum, -, hfolding, -⟩ := guarded_iff.mp hguarded
  have hroot := le_refl (ne_nan_of_le (le_of_lt (rate_pos hfolding).2)).2
  exact Elementary.dominated_folding hm0 (h.m_le hm) hexp.nonneg
    (dominated_size hexp h.codewordSizeBits_le hsize) (h.rate_eq ▸ hroot)
    (h.dominated_aritySum hexp hsum) h.fieldSizeBits_eq hfolding

include hpow

theorem dominated_proximity : Dominated (E.values p).proximity (E.values p').proximity := by
  obtain ⟨-, hsquare, -, -, hproximity, hfolding, -⟩ := guarded_iff.mp hguarded
  have hden := denominator_pos hexp.nonneg (hpow _ (rate_pos hfolding).1) hguarded
  have hden' := le_refl (ne_nan_of_le (le_of_lt hden)).2
  exact Elementary.dominated_proximity hm0 (h.m_le hm)
    (dominated_size hexp h.codewordSquareBits_le hsquare) hden (h.denominator_eq ▸ hden') hproximity

/-- All checks pass for the smaller instance. -/
theorem guarded : ∀ g ∈ E.guarded p, g.2.isFinite = true := by
  obtain ⟨hsize, hsquare, hfield, hsum, -, -, hquery⟩ := guarded_iff.mp hguarded
  exact guarded_iff.mpr ⟨(dominated_size hexp h.codewordSizeBits_le hsize).isFinite,
    (dominated_size hexp h.codewordSquareBits_le hsquare).isFinite, h.fieldSizeBits_eq ▸ hfield,
    (h.dominated_aritySum hexp hsum).isFinite,
    (h.dominated_proximity hexp hpow hm hm0 hguarded).isFinite,
    (h.dominated_folding hexp hm hm0 hguarded).isFinite, h.query_eq ▸ hquery⟩

/-- And so does the last one, of the sum of the terms. -/
theorem total_bounds
    (hfin : ((E.values p').proximity + (E.values p').folding + (E.values p').query).isFinite
      = true) :
    ((E.values p).proximity + (E.values p).folding + (E.values p).query).isFinite = true ∧
      (E.values p).proximity + (E.values p).folding + (E.values p).query
        ≤ (E.values p').proximity + (E.values p').folding + (E.values p').query := by
  have hquery := (isFinite_add hfin).2
  have hpart := (h.dominated_proximity hexp hpow hm hm0 hguarded).add
    (h.dominated_folding hexp hm hm0 hguarded) (isFinite_add hfin).1
  have hle := add_le_add_right hpart.le hpart.nonneg hquery
  -- The query error may have any sign, and is itself below the sum.
  have hlow := (le_add_of_nonneg hquery hpart.isFinite hpart.nonneg).2
  rw [h.query_eq]
  exact ⟨isFinite_of_le_of_le hlow hle hquery hfin, hle⟩

end

end Params.NoLarger

/-! ### The bound -/

namespace Elementary

open Binary64

variable {E : Elementary} {p p' : Params Binary64}

/-- **A smaller instance has a bound that is not larger.** If the terms exist for an instance, then
they exist for a smaller one; the proximity and the folding error have not grown, and the rest is
the same. If there is a bound for the instance, then there is one for the smaller one, and it is not
larger. -/
theorem smaller_instance (hexp : E.ExpLaws)
    (hpow : ∀ x, (zero false).lt x = true → zero false ≤ E.pow x (ofHalves 3))
    (hm0 : (zero false).lt p.m = true) (h : p.NoLarger p') :
    (∀ t', E.terms p' = .ok t' → ∃ t, E.terms p = .ok t ∧
      t.proximity ≤ t'.proximity ∧ t.folding ≤ t'.folding ∧
      t.rate = t'.rate ∧ t.alpha = t'.alpha ∧ t.query = t'.query) ∧
    ∀ v', E.bound p' = .ok v' → ∃ v, E.bound p = .ok v ∧ v ≤ v' := by
  have hterms : ∀ t', E.terms p' = .ok t' → t' = E.values p' ∧ p.m.isFinite = true ∧
      (∀ g ∈ E.guarded p', g.2.isFinite = true) ∧ E.terms p = .ok (E.values p) := by
    intro t' ht'
    obtain ⟨hm, hzero, hguarded, ht'⟩ := terms_eq_ok_iff_guarded.mp ht'
    rw [← h.m_eq] at hm hzero
    exact ⟨ht', hm, hguarded, terms_eq_ok_iff_guarded.mpr
      ⟨hm, hzero, h.guarded hexp hpow hm hm0 hguarded, rfl⟩⟩
  constructor
  · intro t' ht'
    obtain ⟨rfl, hm, hguarded, ht⟩ := hterms t' ht'
    exact ⟨_, ht, (h.dominated_proximity hexp hpow hm hm0 hguarded).le,
      (h.dominated_folding hexp hm hm0 hguarded).le, h.rate_eq, h.alpha_eq, h.query_eq⟩
  · intro v' hv'
    obtain ⟨t', ht', rfl, hfin⟩ := bound_eq_ok_iff_terms.mp hv'
    obtain ⟨rfl, hm, hguarded, ht⟩ := hterms t' ht'
    obtain ⟨htotal, hle⟩ := h.total_bounds hexp hpow hm hm0 hguarded hfin
    exact ⟨_, bound_eq_ok_iff_terms.mpr ⟨_, ht, rfl, htotal⟩, hle⟩

theorem whole_pow_nonneg {x : Binary64} (hx : (zero false).lt x = true) :
    zero false ≤ whole.pow x (ofHalves 3) :=
  zero_le_whole_pow (le_of_lt hx) isFinite_ofHalves_three ofHalves_three_pos

/-- A domain of half the size and one round less. -/
theorem smaller_instance_quarterCode :
    (∃ t t', whole.terms quarterCode = .ok t' ∧
      whole.terms { quarterCode with codewordSizeBits := 3, arityBits := [1] } = .ok t ∧
      t.proximity ≤ t'.proximity ∧ t.folding ≤ t'.folding) ∧
    ∃ v v', whole.bound quarterCode = .ok v' ∧
      whole.bound { quarterCode with codewordSizeBits := 3, arityBits := [1] } = .ok v ∧
      v ≤ v' := by
  have hsmaller : Params.NoLarger { quarterCode with codewordSizeBits := 3, arityBits := [1] }
      quarterCode :=
    ⟨rfl, rfl, rfl, rfl, by decide, .cons (UInt64.le_refl 1) .nil⟩
  obtain ⟨hle, hle'⟩ := smaller_instance expLaws_whole (fun _ => whole_pow_nonneg)
    Binary64.one_pos hsmaller
  obtain ⟨t, ht, hproximity, hfolding, -⟩ := hle _ terms_quarterCode
  obtain ⟨v', hv'⟩ := exists_bound_quarterCode
  obtain ⟨v, hv, hvle⟩ := hle' v' hv'
  exact ⟨⟨t, _, terms_quarterCode, ht, hproximity, hfolding⟩, v, v', hv', hv, hvle⟩

end Elementary

end FriBound
