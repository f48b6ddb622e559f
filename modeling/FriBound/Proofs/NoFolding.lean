import FriBound.Proofs.ArityScaling
import FriBound.Proofs.LogOrder

/-!
# Schedules without folding

Without folding rounds there is nothing to sum over. The rounded sum of no powers is minus zero, and
the logarithm of no powers is minus infinity. Either goes through products, quotients or differences
before it meets the other terms, and on the way could become something else: a zero times infinity
and the difference of two infinities are not numbers.

Where that happens the evaluation fails. A product that is a NaN makes the folding term one, which
is found by its check. In logarithms a NaN is not checked by itself, but there is always a finite
term, the one of the queries, so the sum of the powers is formed and meets the NaN. In all other
cases the folding term is a zero, of either sign, or minus infinity. Neither changes a sum, except
that a zero takes the sign from another zero. For the sum of powers this is no exception, since one
of the powers is one.

## Main definitions

* `Elementary.SkipLaws` — what is asked of the elementary functions
* `Elementary.Unfolded` — what a schedule without folding contributes

## Main results

* `Elementary.logSum_skip` — minus infinity is skipped in a sum of powers
* `Elementary.unfolded` — nothing is contributed, in both evaluations
-/

namespace FriBound

namespace Binary64

variable {x y : Binary64} {s : Bool}

/-! ### Zeros in sums -/

/-- A zero does not move a finite number. -/
theorem place_add_zero (hx : x.isFinite = true) : (x + zero s).place = x.place := by
  obtain ⟨a, ha, -⟩ := isFinite_iff_place.mp hx
  have hround := roundPlace_place ha Nat.one_pos
  rw [Int.natCast_one, Int.mul_one] at hround
  rw [place_add hx rfl ha (place_zero s), Int.add_zero, hround, ha]

theorem isFinite_add_zero (hx : x.isFinite = true) : (x + zero s).isFinite = true := by
  obtain ⟨a, ha, hlt⟩ := isFinite_iff_place.mp hx
  exact isFinite_iff_place.mpr ⟨a, (place_add_zero hx).trans ha, hlt⟩

/-- So a sum is the same with and without it. -/
theorem same_add_zero_add (hx : x.isFinite = true) (hy : y.isFinite = true) :
    (x + zero s + y).same (x + y) = true := by
  obtain ⟨a, ha, -⟩ := isFinite_iff_place.mp hx
  obtain ⟨b, hb, -⟩ := isFinite_iff_place.mp hy
  rw [same, place_add (isFinite_add_zero hx) hy ((place_add_zero hx).trans ha) hb,
    place_add hx hy ha hb]
  exact decide_eq_true rfl

/-- Bit for bit it is the same unless it is a zero. -/
theorem add_zero_of_ne (hx : ∀ t, x ≠ zero t) : x + zero s = x := by
  cases x with
  | nan => exact nan_add _
  | inf t => exact inf_add t rfl
  | fin t m =>
    have hunits : m.units ≠ 0 := fun h => hx t (congrArg (fin t) (Magnitude.ext h))
    refine eq_of_place (place_add_zero rfl) rfl ?_
    have := natAbs_signed t m
    omega

/-- And the sign of a zero does not matter when a one is added. -/
theorem add_zero_add (h : (∀ t, x ≠ zero t) ∨ y = ofInt 1) : x + zero s + y = x + y := by
  by_cases hx : ∃ t, x = zero t
  · obtain ⟨t, rfl⟩ := hx
    obtain rfl := h.resolve_left fun hne => hne t rfl
    cases s <;> cases t <;> decide +kernel
  · rw [add_zero_of_ne (not_exists.mp hx)]

/-! ### Minus infinity -/

theorem add_negInf (x : Binary64) : x + inf true = nan ∨ x + inf true = inf true := by
  cases x with
  | nan => exact Or.inl (nan_add _)
  | fin t m => exact Or.inr (add_inf true rfl)
  | inf t =>
    cases t with
    | false => exact Or.inl inf_add_neg_inf
    | true => exact Or.inr rfl

theorem larger_negInf (hx : x ≠ nan) : larger x (inf true) = x := by
  rw [larger, isNaN_eq_false_of_ne hx, not_lt_of_le (negInf_le hx)]
  rfl

theorem largest_skip (x y : Binary64) :
    [x, inf true, y].foldl larger (inf true) = [x, y].foldl larger (inf true) := by
  have hne := (larger_spec (x := inf true) (y := x) (by simp)).1
  show larger (larger (larger (inf true) x) (inf true)) y = larger (larger (inf true) x) y
  rw [larger_negInf hne]

end Binary64

namespace Elementary

open Binary64

/-- What is asked of the power of two and of the logarithm. -/
structure SkipLaws (E : Elementary) : Prop extends SpecialValues E where
  exp2_negInf : E.exp2 (inf true) = zero false
  /-- From one on, the logarithm is not negative. -/
  log2_nonneg : ∀ x : Binary64, ofInt 1 ≤ x → zero false ≤ E.log2 x

variable {E : Elementary} {p : Params Binary64}

theorem powerSum_skip (h : E.SkipLaws) {t x y : Binary64} (hfin : t.isFinite = true)
    (ht : t = x ∨ t = y) : E.powerSum t [x, inf true, y] = E.powerSum t [x, y] := by
  have hinf : E.exp2 (inf true - t) = zero false := by rw [inf_sub true hfin, h.exp2_negInf]
  have hone : E.exp2 (t - t) = ofInt 1 := by rw [sub_self hfin, h.exp2_zero]
  show -ofInt 0 + E.exp2 (x - t) + E.exp2 (inf true - t) + E.exp2 (y - t)
    = -ofInt 0 + E.exp2 (x - t) + E.exp2 (y - t)
  rw [hinf]
  -- One of the two powers is one, and it stands before the zero or after it.
  refine add_zero_add ?_
  rcases ht with rfl | rfl
  · rw [hone]
    exact Or.inl fun s => by cases s <;> decide +kernel
  · exact Or.inr hone

/-- **Minus infinity is skipped**, bit for bit, whatever the other two are. -/
theorem logSum_skip (h : E.SkipLaws) (x y : Binary64) :
    E.logSum [x, inf true, y] = E.logSum [x, y] := by
  have hskip := largest_skip x y
  obtain ⟨-, -, -, hmem⟩ := foldl_larger_spec [x, y] (t := inf true) (by simp)
  generalize ht : [x, y].foldl larger (inf true) = t at hskip hmem
  cases hfin : t.isFinite with
  | false => rw [logSum_of_not_finite hskip hfin, logSum_of_not_finite ht hfin]
  | true =>
    have htxy : t = x ∨ t = y := by
      rcases hmem with rfl | hmem
      · exact absurd hfin Bool.false_ne_true
      · simpa using hmem
    rw [logSum_of_isFinite hskip hfin, logSum_of_isFinite ht hfin, powerSum_skip h hfin htxy]

/-! ### Nothing to sum over -/

/-- The folding term in logarithms, unless it has become a NaN on its way. -/
theorem logFolding_eq_negInf (hnil : p.arityBits = []) (hnan : (E.logTerms p).folding ≠ nan) :
    (E.logTerms p).folding = inf true := by
  have hfield := (within_int32 p.fieldSizeBits).isFinite (by decide)
  rw [folding_eq, hnil, List.map_nil, logSum_nil] at hnan ⊢
  rcases add_negInf (E.foldingHead p) with hsum | hsum
  · rw [hsum] at hnan
    exact absurd (nan_add _) hnan
  · rw [hsum, inf_sub true hfield]

/-- What a schedule without folding contributes. -/
structure Unfolded (E : Elementary) (p : Params Binary64) : Prop where
  /-- The folding term is a zero, -/
  folding_eq_zero : ∀ t, E.terms p = .ok t → ∃ s, t.folding = zero s
  /-- and the sum of the terms is numerically the sum of the other two. -/
  total_same : ∀ t, E.terms p = .ok t →
    (t.proximity + t.folding + t.query).same (t.proximity + t.query) = true
  /-- Its logarithm is minus infinity, -/
  logFolding_eq : ∀ l, E.logBound p = .ok l → (E.logTerms p).folding = inf true
  /-- and the result is, bit for bit, the logarithm of the sum of the other two. -/
  logBound_eq : ∀ l, E.logBound p = .ok l →
    l = E.logSum [(E.logTerms p).proximity, (E.logTerms p).query]

/-- **A schedule without folding contributes nothing**, in both evaluations. -/
theorem unfolded (h : E.SkipLaws) (hnil : p.arityBits = []) : E.Unfolded p := by
  have hterms : ∀ {t}, E.terms p = .ok t → t.proximity.isFinite = true ∧
      t.query.isFinite = true ∧ ∃ s, t.folding = zero s := by
    intro t ht
    obtain ⟨-, -, hguarded, rfl⟩ := terms_eq_ok_iff_guarded.mp ht
    obtain ⟨-, -, -, -, hproximity, hfolding, hquery⟩ := guarded_iff.mp hguarded
    exact ⟨hproximity, hquery, exists_folding_eq_zero hnil hfolding⟩
  have hfolding : ∀ {l}, E.logBound p = .ok l → (E.logTerms p).folding = inf true := by
    intro l hl
    obtain ⟨hnot, -⟩ := logTerms_of_logBound h.toSpecialValues h.log2_nonneg hl
    exact logFolding_eq_negInf hnil (hnot _ (by simp [LogTerms.list])).1
  constructor
  · exact fun t ht => (hterms ht).2.2
  · intro t ht
    obtain ⟨hproximity, hquery, s, hs⟩ := hterms ht
    rw [hs]
    exact same_add_zero_add hproximity hquery
  · exact fun l => hfolding
  · intro l hl
    obtain ⟨-, -, htotal, -⟩ := logTotal_of_logBound hl
    rw [htotal, logTotal_eq, hfolding hl, logSum_skip h]

theorem skipLaws_whole : whole.SkipLaws where
  toSpecialValues := logLaws_whole.sumLaws.toSpecialValues
  exp2_negInf := rfl
  log2_nonneg := orderLaws_whole.log2_nonneg

/-- A domain of one point, without a folding round. -/
def barePoint : Params Binary64 := { pointCode with arityBits := [], numRounds := 0 }

theorem unfolded_barePoint :
    (∃ t, whole.terms barePoint = .ok t ∧ ∃ s, t.folding = zero s) ∧
      whole.logBound barePoint = .ok (ofInt 1) ∧
      ofInt 1 = whole.logSum [ofInt 0, ofInt 0] := by
  have hunfolded : whole.Unfolded barePoint := unfolded skipLaws_whole rfl
  have hm : ∀ s, barePoint.m ≠ zero s := by decide +kernel
  have hterms : whole.terms barePoint = .ok (whole.values barePoint) :=
    terms_eq_ok_iff_guarded.mpr ⟨by decide +kernel, not_exists.mpr hm, by decide +kernel, rfl⟩
  have hlog : whole.logBound barePoint = .ok (ofInt 1) := by decide +kernel
  have hparts : (whole.logTerms barePoint).proximity = ofInt 0 ∧
      (whole.logTerms barePoint).query = ofInt 0 := by decide +kernel
  have hlogs := hunfolded.logBound_eq _ hlog
  rw [hparts.1, hparts.2] at hlogs
  exact ⟨⟨_, hterms, hunfolded.folding_eq_zero _ hterms⟩, hlog, hlogs⟩

end Elementary

end FriBound
