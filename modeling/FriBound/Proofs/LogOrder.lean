import FriBound.Proofs.LogOutcome
import FriBound.Proofs.Monotone

/-!
# The bound in logarithms and its terms

To report more bits of security than a single term allows would be the costly mistake. It does not
happen, however the powers and their sum are rounded: the largest logarithm is taken out before
anything else, and what is added to it is the logarithm of a sum of at least one. That sum is at
most three, so the result is above the largest term by the logarithm of three at most.

Some care is needed for what is not a finite number. A result exists only if it is neither a NaN nor
plus infinity, so none of the terms is. The query term cannot be minus infinity either: its factor
is a logarithm of at least zero, lowered by half of the exponent of the rate. So there is always a
finite term, and the largest one is finite.

Of the elementary functions little is asked (`Elementary.OrderLaws`), and no accuracy.

## Main definitions

* `Elementary.OrderLaws` — what is asked
* `LogTerms.list` — the logarithms of the terms, in their order
* `Elementary.TermLimits` — what the terms say about the bound and about the security

## Main results

* `Elementary.logTerms_of_logBound` — the terms of a bound that exists
* `Elementary.logSum_bounds` — the logarithm of a sum of powers and the largest exponent
* `Elementary.term_limits` — every term is a limit
-/

namespace FriBound

/-- The logarithms of the terms, in their order. -/
def LogTerms.list {α : Type} (t : LogTerms α) : List α := [t.proximity, t.folding, t.query]

namespace Elementary

open Binary64

/-- What is asked of the power of two and of the logarithm. -/
structure OrderLaws (E : Elementary) : Prop extends SumLaws E where
  log2_one : E.log2 (ofInt 1) = zero false
  /-- From one on, the logarithm does not fall. -/
  log2_mono : ∀ x y : Binary64, ofInt 1 ≤ x → x ≤ y → E.log2 x ≤ E.log2 y

variable {E : Elementary} {p : Params Binary64} {l : Binary64}

theorem OrderLaws.log2_nonneg (h : E.OrderLaws) (x : Binary64) (hx : ofInt 1 ≤ x) :
    zero false ≤ E.log2 x := by
  have hone := h.log2_mono _ x (le_refl (ne_nan_of_isFinite isFinite_one)) hx
  rwa [h.log2_one] at hone

/-! ### A bound that exists -/

/-- The query term is finite or plus infinity, since it is not below a finite number. -/
theorem query_isFinite_or_eq_inf (hlog : ∀ x, ofInt 1 ≤ x → zero false ≤ E.log2 x)
    (hm : p.m.isFinite = true) (hpos : (zero false).lt p.m = true) :
    (E.logTerms p).query.isFinite = true ∨ (E.logTerms p).query = inf false := by
  have hrecip := (twice_spec hm hpos).2
  have hrate := within_halfRate p
  have hlow : Within 32 (zero false - ofHalves 1 * ofInt p.rateBits.toInt) := by
    have hwithin : Within 0 (zero false) := ofInt_zero ▸ Within.ofInt (by decide)
    exact hwithin.sub hrate (by decide)
  have halpha : zero false - ofHalves 1 * ofInt p.rateBits.toInt ≤ E.logAlpha p := by
    rw [logAlpha_eq]
    refine add_le_add_right (hlog _ ?_) zero_le_zero
      (isFinite_neg.trans (hrate.isFinite (by decide)))
    exact le_add_of_zero_le isFinite_one hrecip
  rw [query_eq]
  split
  · exact Or.inl (Within.isFinite (e := 0) (Within.ofInt (by decide)) (by decide))
  · have hq : (zero false).lt (ofInt p.numQueries.toNat) = true := by
      refine ofInt_pos (Nat.pos_of_ne_zero fun h0 => ?_)
      exact ‹p.numQueries ≠ 0› (UInt64.toNat_inj.mp h0)
    have hwithin := (within_uint64 p.numQueries).mul hlow (e := 96) (by decide)
    exact isFinite_or_eq_inf_of_le (mul_le_mul_left_of_pos halpha (hlow.isFinite (by decide))
      ((within_uint64 _).isFinite (by decide)) hq) (hwithin.isFinite (by decide))

/-- **The terms of a bound that exists.** None of them is a NaN or plus infinity, and that of the
queries is finite. -/
theorem logTerms_of_logBound (h : E.SpecialValues)
    (hlog : ∀ x, ofInt 1 ≤ x → zero false ≤ E.log2 x) (hl : E.logBound p = .ok l) :
    (∀ x ∈ (E.logTerms p).list, x ≠ nan ∧ x ≠ inf false) ∧
      (E.logTerms p).query.isFinite = true := by
  obtain ⟨hm, hpos, htotal, hnan, hinf⟩ := logTotal_of_logBound hl
  have hsum : l = E.logSum (E.logTerms p).list := htotal
  have hfinite : ∀ x ∈ (E.logTerms p).list, x ≠ inf false := by
    rintro x hx rfl
    exact hinf (hsum.trans (logSum_of_inf_mem hx))
  have hmem : (E.logTerms p).query ∈ (E.logTerms p).list := by simp [LogTerms.list]
  have hquery := (query_isFinite_or_eq_inf hlog hm hpos).resolve_right (hfinite _ hmem)
  refine ⟨fun x hx => ⟨?_, hfinite x hx⟩, hquery⟩
  -- The query term makes the largest exponent finite, so powers are formed and a NaN gets into the
  -- sum.
  rintro rfl
  exact hnan (hsum.trans (logSum_of_nan_mem h hx hfinite ⟨_, hmem, hquery⟩))

/-! ### The largest exponent -/

/-- **The logarithm of a sum of powers** is not below the largest exponent, and above it by the
logarithm of the number of powers at most. -/
theorem logSum_bounds (h : E.OrderLaws) {xs : List Binary64}
    (hxs : ∀ x ∈ xs, x ≠ nan ∧ x ≠ inf false) (hex : ∃ x ∈ xs, x.isFinite = true) :
    ∃ t ∈ xs, (∀ x ∈ xs, x ≤ t) ∧ t ≤ E.logSum xs ∧
      E.logSum xs ≤ t + E.log2 (ofInt xs.length) := by
  obtain ⟨t, ht, htop, hfin, hall⟩ := exists_largest (fun x hx => (hxs x hx).2) hex
  have hle : ∀ x ∈ xs, x ≤ t := fun x hx => hall x hx (hxs x hx).1
  have hone := (powerSum_bounds h.toSumLaws ht hfin hle).1
  have hlength := powerSum_le_length h.toSumLaws ht hfin hle
  have hnonneg := h.log2_nonneg _ hone
  rw [logSum_of_isFinite htop hfin]
  exact ⟨t, ht, hle, le_add_of_zero_le hfin hnonneg,
    add_le_add_left (h.log2_mono _ _ hone hlength) hnonneg hfin⟩

/-- Bits of security are the opposite of a logarithm that exists. -/
theorem exists_logBound_of_securityBits {b : Binary64} (hb : E.securityBits p = .ok b) :
    ∃ l, E.logBound p = .ok l ∧ b = -l := by
  cases hl : E.logBound p with
  | error e => cases (@Params.securityBits_of_error _ E.scalar p e hl).symm.trans hb
  | ok l =>
    cases (@Params.securityBits_of_ok _ E.scalar p l hl).symm.trans hb
    exact ⟨l, rfl, rfl⟩

/-- What the terms say about the bound in logarithms and about the bits of security. -/
structure TermLimits (E : Elementary) (p : Params Binary64) : Prop where
  /-- The bound is not below any of its terms, -/
  term_le : ∀ l, E.logBound p = .ok l → ∀ x ∈ (E.logTerms p).list, x ≤ l
  /-- and above the largest of them by the logarithm of three at most. -/
  le_largest_add : ∀ l, E.logBound p = .ok l → ∃ t ∈ (E.logTerms p).list,
    (∀ x ∈ (E.logTerms p).list, x ≤ t) ∧ l ≤ t + E.log2 (ofInt 3)
  /-- So no more bits of security are reported than each term allows, -/
  bits_le : ∀ b, E.securityBits p = .ok b → ∀ x ∈ (E.logTerms p).list, b ≤ -x
  /-- and without queries there are none. -/
  bits_nonpos : ∀ b, E.securityBits p = .ok b → p.numQueries = 0 → b ≤ zero false

/-- **Every term is a limit** to the bound in logarithms, and to the bits of security. -/
theorem term_limits (h : E.OrderLaws) (p : Params Binary64) : E.TermLimits p := by
  have hbounds : ∀ {l}, E.logBound p = .ok l → ∃ t ∈ (E.logTerms p).list,
      (∀ x ∈ (E.logTerms p).list, x ≤ t) ∧ t ≤ l ∧ l ≤ t + E.log2 (ofInt 3) := by
    intro l hl
    obtain ⟨hterms, hquery⟩ := logTerms_of_logBound h.toSpecialValues h.log2_nonneg hl
    have hsum : l = E.logSum (E.logTerms p).list := (logTotal_of_logBound hl).2.2.1
    rw [hsum]
    exact logSum_bounds h hterms ⟨_, by simp [LogTerms.list], hquery⟩
  have hle : ∀ {l}, E.logBound p = .ok l → ∀ x ∈ (E.logTerms p).list, x ≤ l := by
    intro l hl x hx
    obtain ⟨t, -, hall, hlow, -⟩ := hbounds hl
    exact le_trans (hall x hx) hlow
  constructor
  · exact fun l => hle
  · intro l hl
    obtain ⟨t, ht, hall, -, hhigh⟩ := hbounds hl
    exact ⟨t, ht, hall, hhigh⟩
  · intro b hb x hx
    obtain ⟨l, hl, rfl⟩ := exists_logBound_of_securityBits hb
    exact neg_le_neg (hle hl x hx)
  · intro b hb hq
    obtain ⟨l, hl, rfl⟩ := exists_logBound_of_securityBits hb
    have hquery : (E.logTerms p).query = ofInt 0 := by rw [query_eq, if_pos hq]
    have hzero : ofInt 0 ≤ l := hquery ▸ hle hl _ (by simp [LogTerms.list])
    rw [← ofInt_zero]
    exact le_trans (neg_le_neg hzero) neg_zero_le

/-- The whole part of a logarithm keeps the order too. -/
theorem orderLaws_whole : whole.OrderLaws where
  toSumLaws := logLaws_whole.sumLaws
  log2_one := by
    show wholeLog2 _ = _
    decide +kernel
  log2_mono x y hx hxy := by
    have hpos := lt_of_lt_of_le one_pos hx
    have hnan : wholeLog2 x ≠ nan := wholeLog2_ne_nan (le_of_lt hpos)
    show wholeLog2 x ≤ wholeLog2 y
    cases hy : y.isFinite with
    | false =>
      rw [eq_inf_of_nonneg (le_trans (le_of_lt hpos) hxy) hy]
      exact le_inf hnan
    | true =>
      have hxfin := isFinite_of_le_of_le hx hxy isFinite_one hy
      obtain ⟨m, rfl, hm⟩ := exists_fin_of_pos hxfin hpos
      obtain ⟨k, rfl, hk⟩ := exists_fin_of_pos hy (lt_of_lt_of_le hpos hxy)
      have hunits : m.units ≤ k.units :=
        Int.ofNat_le.mp ((le_iff_of_place (place_fin ..) (place_fin ..)).mp hxy)
      have hlog : m.units.log2 ≤ k.units.log2 :=
        (Nat.le_log2 hk).mpr (Nat.le_trans (Nat.log2_self_le hm) hunits)
      rw [wholeLog2_fin hm, wholeLog2_fin hk]
      exact ofInt_le_ofInt (by omega)

/-- The logarithms of the terms are zero, one and zero, and without queries they are the same. -/
theorem term_limits_pointCode :
    (whole.securityBits pointCode = .ok (ofInt (-2)) ∧
      ∀ x ∈ (whole.logTerms pointCode).list, ofInt (-2) ≤ -x) ∧
    ∃ b, whole.securityBits { pointCode with numQueries := 0 } = .ok b ∧ b ≤ zero false := by
  have hlimits := term_limits orderLaws_whole pointCode
  have hidle := term_limits orderLaws_whole { pointCode with numQueries := 0 }
  have hbits : whole.securityBits pointCode = .ok (ofInt (-2)) := by decide +kernel
  have hbits' : whole.securityBits { pointCode with numQueries := 0 } = .ok (ofInt (-2)) := by
    decide +kernel
  exact ⟨⟨hbits, hlimits.bits_le _ hbits⟩, _, hbits', hidle.bits_nonpos _ hbits' rfl⟩

end Elementary

end FriBound
