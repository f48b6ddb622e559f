import FriBound.Proofs.Exp2Size
import FriBound.Proofs.LogOutcome
import FriBound.Proofs.Queries

/-!
# What the evaluation in logarithms covers

Where the evaluation of the bound succeeds, the evaluation in logarithms does as well. It has two
ways out of range, and each of them takes a checked quantity along: a double of `m` that is out of
range is a part of the folding error, and a reciprocal that is out of range makes `alpha` infinite,
or NaN next to a rate of zero, and no positive number of queries makes a finite power of that.

## Main results

* `Elementary.not_logOverflow` — no way out of range is left where the terms exist
* `Elementary.logBound_of_bound` — a bound has a logarithm
-/

namespace FriBound

namespace Binary64

/-- A root is not negative or it is not a number, and so is its product with infinity. -/
theorem sqrt_mul_inf (x : Binary64) :
    x.sqrt * inf false = inf false ∨ x.sqrt * inf false = nan := by
  have hround : ∀ a b : Nat,
      round false a b * inf false = inf false ∨ round false a b * inf false = nan := by
    intro a b
    show mul _ _ = _ ∨ mul _ _ = _
    rw [round]
    split
    · rw [mul]
      split <;> simp
    · exact Or.inl rfl
  cases x with
  | nan => exact Or.inr rfl
  | inf s =>
    cases s with
    | true => exact Or.inr rfl
    | false => exact Or.inl rfl
  | fin s m =>
    rw [sqrt]
    split
    · exact Or.inr rfl
    split
    · exact Or.inr rfl
    · exact hround _ _

end Binary64

namespace Elementary

open Binary64

variable {E : Elementary} {p : Params Binary64} {a : Binary64} {q : UInt64}

/-- Of the two values that `alpha` has when it is not finite, no positive number of queries makes a
finite query error. -/
theorem isFinite_of_queryPower (h : E.PowSpecial) (hq : q ≠ 0)
    (ha : a.isFinite = false → a = inf false ∨ a = nan)
    (hfin : (E.queryPower a q).isFinite = true) : a.isFinite = true := by
  have hpos : 0 < q.toNat := by
    rw [Nat.pos_iff_ne_zero]
    exact fun h0 => hq (UInt64.toNat_inj.mp h0)
  rcases Nat.lt_or_ge q.toNat (2 ^ 31) with hlt | hge
  · rw [queryPower_eq_powNat hlt] at hfin
    have hpow : Scalar.isFinite (Scalar.powNatFrom (Scalar.ofInt 1) a q.toNat) = true := hfin
    exact (Scalar.isFinite_powSteps hpow).2.1 (Nat.ne_of_gt hpos)
  · have hpow : E.queryPower a q = E.pow a (ofInt q.toNat) := if_neg (Nat.not_lt.mpr hge)
    rw [hpow] at hfin
    cases hfa : a.isFinite with
    | true => rfl
    | false =>
      exfalso
      rcases ha hfa with rfl | rfl
      · rw [h.pow_inf _ hpos q.toNat_lt] at hfin
        exact Bool.false_ne_true hfin
      · rw [h.pow_nan _ hpos q.toNat_lt] at hfin
        exact Bool.false_ne_true hfin

/-- Where the terms exist, no way out of range has been taken. -/
theorem not_logOverflow (h : E.PowSpecial) (ht : ∃ t, E.terms p = .ok t) : ¬LogOverflow p := by
  obtain ⟨t, ht⟩ := ht
  obtain ⟨-, -, hguarded, -⟩ := terms_eq_ok_iff_guarded.mp ht
  simp only [guarded, Params.guarded, List.forall_mem_cons] at hguarded
  obtain ⟨-, -, -, -, -, hfolding, hquery, -⟩ := hguarded
  rintro (htwice | ⟨hq, hrecip⟩)
  · have hfin : (ofInt 2 * p.m + ofInt 1).isFinite = true :=
      @Params.isFinite_foldingSteps _ E.scalar _ p hfolding _ (List.mem_cons_self ..)
    have htwofin := (isFinite_add hfin).1
    rw [htwice] at htwofin
    exact Bool.false_ne_true htwofin
  · have halpha : (E.values p).alpha = (E.values p).rate.sqrt * inf false := by
      show _ * (ofInt 1 + ofInt 1 / (ofInt 2 * p.m)) = _
      rw [hrecip, add_inf _ isFinite_one]
      rfl
    have hfin : (E.values p).alpha.isFinite = true :=
      isFinite_of_queryPower h hq (fun _ => halpha ▸ sqrt_mul_inf _) hquery
    rw [halpha] at hfin
    rcases sqrt_mul_inf (E.values p).rate with hinf | hnan
    · rw [hinf] at hfin
      exact Bool.false_ne_true hfin
    · rw [hnan] at hfin
      exact Bool.false_ne_true hfin

/-- **A bound has a logarithm.** For a positive `m`, wherever the evaluation of the bound succeeds,
the evaluation in logarithms and the bits of security do. -/
theorem logBound_of_bound (h : E.LogLaws) (hpow : E.PowSpecial)
    (hm : (zero false).lt p.m = true) {v : Binary64} (hv : E.bound p = .ok v) :
    ∃ l, E.logBound p = .ok l ∧ E.securityBits p = .ok (-l) := by
  obtain ⟨t, ht, -⟩ := bound_eq_ok_iff_terms.mp hv
  obtain ⟨hfin, -⟩ := terms_eq_ok_iff_guarded.mp ht
  have hl : E.logBound p = .ok (E.logTotal p) :=
    (logBound_eq_ok_iff_logTotal h).mpr ⟨hfin, hm, not_logOverflow hpow ⟨t, ht⟩, rfl⟩
  exact ⟨_, hl, @Params.securityBits_of_ok _ E.scalar p _ hl⟩

/-- The functions of this library give this code the bound four. -/
theorem logBound_of_bound_pointCode :
    tabulated.bound pointCode = .ok (ofInt 4) ∧
      ∃ l, tabulated.logBound pointCode = .ok l ∧ tabulated.securityBits pointCode = .ok (-l) := by
  have hm : ∀ s, pointCode.m ≠ zero s := by decide +kernel
  have hbound : tabulated.bound pointCode = .ok (ofInt 4) :=
    bound_eq_ok_iff_terms.mpr ⟨_, terms_eq_ok_iff_guarded.mpr
      ⟨by decide +kernel, not_exists.mpr hm, by decide +kernel, rfl⟩,
      by decide +kernel, by decide +kernel⟩
  exact ⟨hbound, logBound_of_bound logLaws_tabulated powSpecial_tabulated half_pos hbound⟩

end Elementary

end FriBound
