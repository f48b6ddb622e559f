import FriBound.Proofs.Guards
import FriBound.Proofs.Products
import FriBound.Proofs.WholeElementary

/-!
# More queries do not weaken the bound

A query that a far word passes with a chance `alpha` of at most one can only lower the bound, and it
does so in rounded arithmetic as well, for all numbers of queries whose power is formed by repeated
squaring. The query error falls with the number of queries, the other parts do not see it, and the
sum of the parts keeps the order.

Nothing is asked of the other parameters or of the elementary functions. The parameters may be
invalid; all that matters is that `alpha` exists and lies between zero and one.

## Main results

* `Elementary.queryPower_antitone` — the query error falls
* `Elementary.more_queries` — and with it the bound, where there is one
-/

namespace FriBound

namespace Elementary

open Binary64

variable {E : Elementary} {p : Params Binary64} {a : Binary64} {q q' : UInt64}

/-- The query error for a chance `a`. -/
abbrev queryPower (E : Elementary) (a : Binary64) (q : UInt64) : Binary64 :=
  letI := E.scalar; Params.queryPower a q

/-- Up to `2 ^ 31 - 1` queries the power is formed by repeated squaring. -/
theorem queryPower_eq_powNat (hq : q.toNat < 2 ^ 31) :
    E.queryPower a q = Scalar.powNat a q.toNat :=
  (if_pos hq).trans (Scalar.powNatFrom_scalar E _ a q.toNat)

theorem inUnit_queryPower (ha : InUnit a) (hq : q.toNat < 2 ^ 31) :
    InUnit (E.queryPower a q) := by
  rw [queryPower_eq_powNat hq]
  exact ha.powNat _

/-- The query error falls as the number of queries grows. -/
theorem queryPower_antitone (ha : InUnit a) (h : q ≤ q') (hq' : q'.toNat < 2 ^ 31) :
    E.queryPower a q' ≤ E.queryPower a q := by
  have hle : q.toNat ≤ q'.toNat := UInt64.le_iff_toNat_le.mp h
  rw [queryPower_eq_powNat hq', queryPower_eq_powNat (Nat.lt_of_le_of_lt hle hq')]
  exact powNat_antitone ha hle

/-! ### The other parts -/

/-- The checked quantities, the query error apart. -/
def guardedSizes (E : Elementary) (p : Params Binary64) : List (Quantity × Binary64) :=
  (E.guarded p).take 6

theorem values_queries (p : Params Binary64) (q : UInt64) :
    E.values { p with numQueries := q } =
      { E.values p with query := E.queryPower (E.values p).alpha q } :=
  rfl

theorem guarded_queries (p : Params Binary64) (q : UInt64) :
    E.guarded { p with numQueries := q } =
      E.guardedSizes p ++ [(.query, E.queryPower (E.values p).alpha q)] :=
  rfl

/-- For a chance between zero and one, the number of queries has no part in a failure. -/
theorem terms_queries_eq_ok_iff (ha : InUnit (E.values p).alpha) (hq : q.toNat < 2 ^ 31)
    {t : Terms Binary64} : E.terms { p with numQueries := q } = .ok t ↔
      (p.m.isFinite = true ∧ (¬∃ s, p.m = zero s) ∧
        ∀ g ∈ E.guardedSizes p, g.2.isFinite = true) ∧
      t = { E.values p with query := E.queryPower (E.values p).alpha q } := by
  have hfin := (inUnit_queryPower (E := E) ha hq).isFinite
  rw [terms_eq_ok_iff_guarded, guarded_queries p q, List.forall_mem_append, values_queries p q]
  simp [hfin, and_assoc]

/-! ### The bound -/

/-- A sum with a query error between zero and one is finite if its other part is. -/
theorem isFinite_add_inUnit {x y : Binary64} (hx : x.isFinite = true) (hy : InUnit y) :
    (x + y).isFinite = true := by
  refine isFinite_add_of_within hx (within_of_abs_le (e := 0) ?_ (by decide)) (by decide)
  obtain ⟨a, ha, hpos⟩ := zero_le_iff_place.mp hy.1
  obtain ⟨b, hb, hab⟩ := exists_place_of_le hy.2 ha
  exact abs_le_iff_place.mpr ⟨a, b, ha, hb, by omega⟩

/-- **More queries do not weaken the bound.** For a chance between zero and one, and numbers of
queries within the range of repeated squaring, both evaluations have the same outcome; the query
error does not grow, and the other parts stay as they are. If there is a bound for the smaller
number of queries, then there is one for the larger number, and it is not larger. -/
theorem more_queries (ha : E.alpha p = .ok a) (h0 : zero false ≤ a) (h1 : a ≤ ofInt 1)
    (h : q ≤ q') (hq' : q'.toNat ≤ 2 ^ 31 - 1) :
    ((∃ t, E.terms { p with numQueries := q } = .ok t) ↔
      ∃ t, E.terms { p with numQueries := q' } = .ok t) ∧
    (∀ t t', E.terms { p with numQueries := q } = .ok t →
      E.terms { p with numQueries := q' } = .ok t' →
      (zero false ≤ t'.query ∧ t'.query ≤ t.query ∧ t.query ≤ ofInt 1) ∧
        t'.rate = t.rate ∧ t'.alpha = t.alpha ∧ t'.proximity = t.proximity ∧
        t'.folding = t.folding) ∧
    ∀ v, E.bound { p with numQueries := q } = .ok v →
      ∃ v', E.bound { p with numQueries := q' } = .ok v' ∧ v' ≤ v := by
  obtain ⟨-, -, rfl⟩ := alpha_eq_ok_iff_values.mp ha
  have hunit : InUnit (E.values p).alpha := ⟨h0, h1⟩
  have hq'' : q'.toNat < 2 ^ 31 := by omega
  have hq : q.toNat < 2 ^ 31 := Nat.lt_of_le_of_lt (UInt64.le_iff_toNat_le.mp h) hq''
  have hpow := inUnit_queryPower (E := E) hunit hq
  have hpow' := inUnit_queryPower (E := E) hunit hq''
  have hle := queryPower_antitone (E := E) hunit h hq''
  refine ⟨?_, ?_, ?_⟩
  · simp only [terms_queries_eq_ok_iff hunit hq, terms_queries_eq_ok_iff hunit hq'',
      exists_and_left, exists_eq, and_true]
  · intro t t' ht ht'
    obtain ⟨-, rfl⟩ := (terms_queries_eq_ok_iff hunit hq).mp ht
    obtain ⟨-, rfl⟩ := (terms_queries_eq_ok_iff hunit hq'').mp ht'
    exact ⟨⟨hpow'.1, hle, hpow.2⟩, rfl, rfl, rfl, rfl⟩
  · intro v hv
    obtain ⟨t, ht, rfl, hfin⟩ := bound_eq_ok_iff_terms.mp hv
    obtain ⟨hsizes, rfl⟩ := (terms_queries_eq_ok_iff hunit hq).mp ht
    have ht' := (terms_queries_eq_ok_iff hunit hq'').mpr ⟨hsizes, rfl⟩
    have hsum := (isFinite_add hfin).1
    refine ⟨_, bound_eq_ok_iff_terms.mpr ⟨_, ht', rfl, isFinite_add_inUnit hsum hpow'⟩, ?_⟩
    refine add_le_add (le_refl ?_) hle ⟨hsum, hpow'.isFinite⟩ ⟨hsum, hpow.isFinite⟩
    intro hnan
    rw [hnan] at hsum
    exact Bool.false_ne_true hsum

/-- A code of rate `1 / 4` with the proximity parameter one, so that a query is passed with a chance
of `3 / 4`. -/
def quarterCode : Params Binary64 where
  numFunctions := 1
  rateBits := 2
  codewordSizeBits := 4
  fieldSizeBits := 10
  m := ofInt 1
  arityBits := [1, 2]
  numRounds := 2
  numQueries := 2

theorem quarterCode_m_ne_zero : ¬∃ s, quarterCode.m = zero s :=
  not_exists.mpr (by decide +kernel)

theorem terms_quarterCode : whole.terms quarterCode = .ok (whole.values quarterCode) :=
  terms_eq_ok_iff_guarded.mpr ⟨isFinite_one, quarterCode_m_ne_zero, by decide +kernel, rfl⟩

theorem exists_bound_quarterCode : ∃ v, whole.bound quarterCode = .ok v :=
  ⟨_, bound_eq_ok_iff_terms.mpr ⟨_, terms_quarterCode, rfl, by decide +kernel⟩⟩

theorem more_queries_quarterCode :
    whole.alpha quarterCode = .ok (ofInt 3 / ofInt 4) ∧
      (∃ t, whole.terms { quarterCode with numQueries := 5 } = .ok t) ∧
      ∃ v v', whole.bound { quarterCode with numQueries := 2 } = .ok v ∧
        whole.bound { quarterCode with numQueries := 5 } = .ok v' ∧ v' ≤ v := by
  have halpha : whole.alpha quarterCode = .ok (ofInt 3 / ofInt 4) :=
    alpha_eq_ok_iff_values.mpr ⟨isFinite_one, quarterCode_m_ne_zero, by decide +kernel⟩
  obtain ⟨hterms, -, hle⟩ := more_queries halpha (by decide +kernel) (by decide +kernel)
    (show (2 : UInt64) ≤ 5 by decide) (by decide)
  obtain ⟨v, hv⟩ := exists_bound_quarterCode
  obtain ⟨v', hv', hlev⟩ := hle v hv
  exact ⟨halpha, hterms.mp ⟨_, terms_quarterCode⟩, v, v', hv, hv', hlev⟩

end Elementary

end FriBound
