import FriBound.Proofs.ArityOrder

/-!
# The total of the arities

Of the folding rounds the bound knows the sum of their arities only: in how many rounds a word is
folded, and in which order, does not matter. A rounded sum may know more than the exact one. Up to
`2 ^ 53` it does not, since every partial sum is a whole number that is held exactly, and the only
powers of two that occur are those with exponents of at most 53.

One trace of the schedule is left in an exact sum. It starts from the negative zero, which is still
there if there are no rounds. But then the total is zero as well, and this is the only way for a sum
of powers of two to be zero.

## Main definitions

* `totalArity` — the exact sum
* `Params.SameTotal` — instances that differ in how the same total is reached

## Main results

* `Elementary.aritySum_eq` — the rounded sum in terms of the exact one
* `Elementary.arity_total` — the evaluation of two instances with the same total
-/

namespace FriBound

/-- The sum of the arities, each of which is a power of two. -/
def totalArity (as : List UInt64) : Nat := (as.map fun a => 2 ^ a.toNat).sum

namespace totalArity

variable {as : List UInt64} {a : UInt64}

theorem two_pow_le (ha : a ∈ as) : 2 ^ a.toNat ≤ totalArity as :=
  List.le_sum_of_mem (List.mem_map.mpr ⟨a, ha, rfl⟩)

theorem eq_zero_iff : totalArity as = 0 ↔ as = [] := by
  constructor
  · intro hzero
    refine List.eq_nil_iff_forall_not_mem.mpr fun a ha => ?_
    have hle := two_pow_le ha
    have hpos := Nat.two_pow_pos a.toNat
    omega
  · rintro rfl
    rfl

theorem toNat_le (hle : totalArity as ≤ 2 ^ 53) (ha : a ∈ as) : a.toNat ≤ 53 :=
  (Nat.pow_le_pow_iff_right Nat.one_lt_two).mp (Nat.le_trans (two_pow_le ha) hle)

end totalArity

/-- The instances may differ in their schedules, as long as the arities have the same sum. What else
enters the arithmetic is the same. -/
structure Params.SameTotal {α : Type} (p p' : Params α) : Prop where
  rateBits_eq : p.rateBits = p'.rateBits
  codewordSizeBits_eq : p.codewordSizeBits = p'.codewordSizeBits
  m_eq : p.m = p'.m
  fieldSizeBits_eq : p.fieldSizeBits = p'.fieldSizeBits
  numQueries_eq : p.numQueries = p'.numQueries
  totalArity_eq : totalArity p.arityBits = totalArity p'.arityBits

theorem Params.SameTotal.terms_eq {α : Type} [Scalar α] {p p' : Params α} (h : p.SameTotal p')
    (hsum : p.aritySum = p'.aritySum) : p.terms = p'.terms := by
  have hrate : p.rate = p'.rate := by rw [Params.rate, Params.rate, h.rateBits_eq]
  have halpha : p.alpha = p'.alpha := by rw [Params.alpha, Params.alpha, hrate, h.m_eq]
  have hsquare : p.codewordSquareBits = p'.codewordSquareBits := by
    rw [Params.codewordSquareBits, Params.codewordSquareBits, h.codewordSizeBits_eq]
  rw [Params.terms, Params.terms, hsquare, Params.termsAt, Params.termsAt, hrate, halpha, hsum,
    h.codewordSizeBits_eq, h.m_eq, h.fieldSizeBits_eq, h.numQueries_eq]

namespace Elementary

open Binary64

variable {E : Elementary} {p p' : Params Binary64}

/-- The running sum holds every partial sum exactly. Without rounds it is what it starts from. -/
theorem aritySum_eq (hexp : ∀ n : Nat, n ≤ 53 → E.exp2 (ofInt n) = twoPow n)
    (hle : totalArity p.arityBits ≤ 2 ^ 53) : E.aritySum p =
      if totalArity p.arityBits = 0 then zero true else ofInt (totalArity p.arityBits) := by
  rw [aritySum_formula]
  split
  case isTrue hzero =>
    rw [totalArity.eq_zero_iff.mp hzero, List.map_nil, List.foldl_nil, ofInt_zero]
    rfl
  case isFalse hpos =>
    have hsizes : (p.arityBits.map fun a => E.size a.toNat)
        = p.arityBits.map fun a => twoPow (a.toNat - 0) := by
      refine List.map_congr_left fun a ha => ?_
      rw [Int.sub_zero]
      exact hexp _ (totalArity.toNat_le hle ha)
    -- Both sides are the same number of units, and not the zero that has two signs.
    have hplace := Gathered.place_foldl_twoPow (b := 0)
      (fun (a : UInt64) (_ : a ∈ p.arityBits) => Nat.zero_le _) hle (d := 0) (by decide)
    have hexact := place_ofInt_of_short (n := totalArity p.arityBits) (by omega)
    have hlimit := natAbs_place_le hexact
    have hplaces : ((0 : Nat) - 0 + places : Int).toNat = places := by omega
    have htotal : (p.arityBits.map fun a => 2 ^ (a.toNat - 0)).sum = totalArity p.arityBits := rfl
    rw [← Int.natCast_mul, Int.natAbs_natCast] at hlimit
    rw [hplaces, ← unitsPerOne_eq, htotal, Nat.min_eq_left hlimit] at hplace
    rw [← Int.natCast_mul] at hexact
    have hpos' := Nat.mul_pos (Nat.pos_of_ne_zero hpos) unitsPerOne_pos
    rw [hsizes]
    exact eq_of_place hplace hexact (by omega)

/-- **The total of the arities.** Two instances with the same total of at most `2 ^ 53` are
evaluated in the same way, be there a bound or not. -/
theorem arity_total (hexp : ∀ n : Nat, n ≤ 53 → E.exp2 (ofInt n) = twoPow n) (h : p.SameTotal p')
    (hle : totalArity p.arityBits ≤ 2 ^ 53) :
    E.terms p = E.terms p' ∧ E.bound p = E.bound p' := by
  have hsum : E.aritySum p = E.aritySum p' := by
    rw [aritySum_eq hexp hle, aritySum_eq hexp (h.totalArity_eq ▸ hle), h.totalArity_eq]
  have hterms := @Params.SameTotal.terms_eq _ E.scalar _ _ h hsum
  exact ⟨hterms, @Params.bound_congr _ E.scalar _ _ hterms⟩

/-- Two rounds that fold by two and by four, or five that fold by two and by one. -/
theorem arity_total_quarterCode :
    ∃ t v, whole.terms quarterCode = .ok t ∧ whole.bound quarterCode = .ok v ∧
      whole.terms { quarterCode with arityBits := [0, 0, 1, 0, 0], numRounds := 5 } = .ok t ∧
      whole.bound { quarterCode with arityBits := [0, 0, 1, 0, 0], numRounds := 5 } = .ok v := by
  have hexact : ∀ n : Nat, n ≤ 53 → whole.exp2 (ofInt n) = twoPow n :=
    fun n _ => expLaws_whole.eq_twoPow n
  have hsame : quarterCode.SameTotal
      { quarterCode with arityBits := [0, 0, 1, 0, 0], numRounds := 5 } :=
    ⟨rfl, rfl, rfl, rfl, rfl, by decide⟩
  obtain ⟨hterms, hbound⟩ := arity_total hexact hsame (by decide)
  obtain ⟨v, hv⟩ := exists_bound_quarterCode
  exact ⟨_, v, terms_quarterCode, hv, hterms ▸ terms_quarterCode, hbound ▸ hv⟩

end Elementary

end FriBound
