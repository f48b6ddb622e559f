import FriBound.Proofs.Coverage
import FriBound.Proofs.SquareRoot
import FriBound.Proofs.Violations

/-!
# The bound on valid parameters

A bound that comes out as zero would claim perfect security. On valid parameters this cannot happen.
The rate may be so small that it is zero in rounded arithmetic, and so may its power in the
denominator of the proximity error; but each of these is a divisor, and a quotient by zero is not
finite and is found by a check. When all checks have passed, the proximity error is a quotient of at
least `2 ^ (-7)` by at most `2 ^ 1023`, which is well above the smallest positive number.

Little is asked of the elementary functions (`Elementary.ExpLaws`, `Elementary.PowLaws`).

## Main definitions

* `Params.divisors` — what the evaluation divides by
* `Elementary.Evaluable` — valid parameters that pass all checks
* `Elementary.Meaningful` — what is then true of the terms

## Main results

* `Elementary.Evaluable.proximity_pos` — the proximity error does not vanish
* `Elementary.valid_bound` — the bound on valid parameters
-/

namespace FriBound

namespace Params

open Scalar

variable {α : Type} [Scalar α] {p : Params α}

/-- What the evaluation divides by. -/
def divisors (p : Params α) : List α :=
  [ofInt 2 * p.m, p.denominator, sqrt p.rate, exp2 (ofInt p.fieldSizeBits.toInt)]

end Params

namespace Binary64

variable {x : Binary64}

/-- A finite power of a number of at least a half is not below the power of a half. -/
theorem twoPow_le_powNat (hx : twoPow (-1) ≤ x) {n : Nat} (hn : n ≤ 1074)
    (hfin : (Scalar.powNat x n).isFinite = true) : twoPow (-n) ≤ Scalar.powNat x n := by
  have hmul : ∀ {k l : Nat} {x y : Binary64},
      (x.isFinite = true → k ≤ 1074 → twoPow (-k) ≤ x) →
      (y.isFinite = true → l ≤ 1074 → twoPow (-l) ≤ y) →
      (x * y).isFinite = true → k + l ≤ 1074 → twoPow (-(k + l : Nat)) ≤ x * y := by
    intro k l x y hx hy hxy hkl
    obtain ⟨hxfin, hyfin⟩ := isFinite_mul hxy
    have hexp : (-(k + l : Nat) : Int) = -k + -l := by omega
    rw [hexp]
    refine le_trans (twoPow_add_le (by omega) (by omega) (by omega) (by omega) (by omega)
      (by omega)) ?_
    exact mul_le_mul (hx hxfin (by omega)) (hy hyfin (by omega)) (twoPow_nonneg _)
      (twoPow_nonneg _) hxfin hyfin
  have hpow := powNatFrom_induction (P := fun k x => x.isFinite = true → k ≤ 1074 → twoPow (-k) ≤ x)
    (k := 0) (l := 1) hmul (fun _ _ => (twoPow_bounds (by omega)).2) (fun _ _ => hx) n
  rw [Nat.zero_add, Nat.one_mul] at hpow
  exact hpow hfin hn

theorem powNat_nonneg (hx : zero false ≤ x) {n : Nat} (hfin : (Scalar.powNat x n).isFinite = true) :
    zero false ≤ Scalar.powNat x n :=
  powNatFrom_induction (P := fun _ x => x.isFinite = true → zero false ≤ x) (k := 0) (l := 0)
    (fun hx hy hxy => mul_nonneg (hx (isFinite_mul hxy).1) (hy (isFinite_mul hxy).2)
      (isFinite_mul hxy).1 (isFinite_mul hxy).2)
    (fun _ => le_of_lt one_pos) (fun _ => hx) n hfin

/-- A quotient of a number that is not tiny by a finite one does not vanish. -/
theorem div_pos {y : Binary64} (hx : x.isFinite = true) (hlow : twoPow (-7) ≤ x)
    (hpos : (zero false).lt y = true) (hhigh : y ≤ twoPow 1023) :
    (zero false).lt (x / y) = true := by
  have hy : y.isFinite = true :=
    isFinite_of_le_of_le (le_of_lt hpos) hhigh rfl (isFinite_twoPow (by decide) (by decide))
  obtain ⟨a, ha, hla⟩ := exists_place_of_le hlow (place_twoPow (by decide) (by decide))
  obtain ⟨m, rfl, hm⟩ := exists_fin_of_pos hy hpos
  have hunits : m.units ≤ 2 ^ (1023 + places : Int).toNat := Int.ofNat_le.mp
    ((le_iff_of_place (place_fin ..) (place_twoPow (by decide) (by decide))).mp hhigh)
  have hexact : 2 ^ (1023 + places : Int).toNat ≤ 2 ^ (-7 + places : Int).toNat * unitsPerOne := by
    rw [unitsPerOne_eq, ← Nat.pow_add]
    exact Nat.pow_le_pow_right Nat.two_pos (by unfold places; decide)
  have hone : (1 : Int) ≤ roundPlace (a * unitsPerOne) m.units := by
    have hlimit := unitLimit_pos
    refine le_roundPlace (short_of_le (by decide)) (by omega) (Nat.pos_of_ne_zero hm) ?_
    calc (1 : Int) * m.units ≤ (2 ^ (-7 + places : Int).toNat : Nat) * (unitsPerOne : Int) := by
          rw [Int.one_mul, ← Int.natCast_mul]
          exact Int.ofNat_le.mpr (Nat.le_trans hunits hexact)
      _ ≤ a * unitsPerOne := Int.mul_le_mul_of_nonneg_right hla (Int.natCast_nonneg _)
  have hplace := place_div hx hy ha (place_fin false m) (Nat.pos_of_ne_zero hm)
  exact lt_iff_place.mpr ⟨_, _, place_zero _, hplace, by omega⟩

theorem add_nonneg {y : Binary64} (hx : zero false ≤ x) (hy : zero false ≤ y)
    (hfin : (x + y).isFinite = true) : zero false ≤ x + y :=
  le_trans hx (le_add_of_nonneg (isFinite_add hfin).1 (isFinite_add hfin).2 hy).1

/-- A sum of numbers that are not negative is not below any of them, in range or out of it. -/
theorem le_add_add {y z : Binary64} (hx : zero false ≤ x) (hy : zero false ≤ y)
    (hz : zero false ≤ z) (hxfin : x.isFinite = true) (hyfin : y.isFinite = true)
    (hzfin : z.isFinite = true) : x ≤ x + y + z ∧ y ≤ x + y + z ∧ z ≤ x + y + z := by
  obtain ⟨hle, -⟩ := le_add_of_nonneg hxfin hyfin hy
  obtain ⟨-, hle'⟩ := le_add_of_nonneg hyfin hxfin hx
  cases hfin : (x + y).isFinite with
  | true =>
    have hsum := (le_add_of_nonneg hfin hzfin hz).1
    exact ⟨le_trans hle hsum, le_trans hle' hsum,
      (le_add_of_nonneg hzfin hfin (le_trans hx hle)).2⟩
  | false =>
    have hinf := eq_inf_of_nonneg (le_trans hx hle) hfin
    obtain ⟨a, ha, hlt⟩ := isFinite_iff_place.mp hzfin
    have hzinf : z ≤ inf false := le_iff_place.mpr ⟨a, _, ha, rfl, by simp; omega⟩
    rw [hinf] at hle hle' ⊢
    rw [inf_add false hzfin]
    exact ⟨hle, hle', hzinf⟩

/-- The factor of `alpha` that comes from `m`. -/
theorem one_add_spec (hx : x.isFinite = true) (hx0 : zero false ≤ x) :
    (ofInt 1 + x).isFinite = true ∧ ofInt 1 ≤ ofInt 1 + x := by
  have hone : Within 0 (ofInt 1) := Within.ofInt (by decide)
  refine ⟨?_, (le_add_of_nonneg isFinite_one hx hx0).1⟩
  rw [add_comm isFinite_one hx]
  exact isFinite_add_of_within hx hone (by decide)

theorem foldl_add_nonneg {t : Binary64} {ys : List Binary64} (ht : zero false ≤ t)
    (hys : ∀ y ∈ ys, zero false ≤ y) (hfin : (ys.foldl (· + ·) t).isFinite = true) :
    zero false ≤ ys.foldl (· + ·) t := by
  induction ys generalizing t with
  | nil => exact ht
  | cons y ys ih =>
    obtain ⟨hy, hys⟩ := List.forall_mem_cons.mp hys
    have hstep : Scalar.isFinite (t + y) = true := (Scalar.isFinite_foldl_add hfin).1
    exact ih (add_nonneg ht hy hstep) hys hfin

end Binary64

namespace Elementary

open Binary64

variable {E : Elementary} {p : Params Binary64}

@[inherit_doc Params.divisors]
abbrev divisors (E : Elementary) (p : Params Binary64) : List Binary64 :=
  letI := E.scalar; p.divisors

@[inherit_doc Params.aritySum]
abbrev aritySum (E : Elementary) (p : Params Binary64) : Binary64 :=
  letI := E.scalar; p.aritySum

/-- A size, from its logarithm. -/
abbrev size (E : Elementary) (bits : Int) : Binary64 := E.exp2 (ofInt bits)

theorem alpha_formula : (E.values p).alpha =
    (E.values p).rate.sqrt * (ofInt 1 + ofInt 1 / (ofInt 2 * p.m)) := rfl

theorem proximity_formula : (E.values p).proximity =
    Scalar.powNat (p.m + ofHalves 1) 7 * E.size p.codewordSquareBits / E.denominator p := by
  show @Scalar.powNatFrom _ E.scalar _ _ _ * _ / _ = _
  rw [Scalar.powNatFrom_scalar]
  rfl

theorem denominator_formula : E.denominator p =
    ofInt 2 * E.pow (E.values p).rate (ofHalves 3) * E.size p.fieldSizeBits.toInt := rfl

theorem folding_formula : (E.values p).folding =
    (ofInt 2 * p.m + ofInt 1) * (E.size p.codewordSizeBits.toInt + ofInt 1)
      / (E.values p).rate.sqrt * E.aritySum p / E.size p.fieldSizeBits.toInt := rfl

theorem aritySum_formula : E.aritySum p =
    (p.arityBits.map fun a => E.size a.toNat).foldl (· + ·) (-ofInt 0) := rfl

theorem sizes_nonneg (hsize : ∀ n, zero false ≤ E.size n) (as : List UInt64) :
    ∀ y ∈ as.map fun a => E.size a.toNat, zero false ≤ y := by
  intro y hy
  obtain ⟨a, -, rfl⟩ := List.mem_map.mp hy
  exact hsize _

/-- What the checks ask for: sizes and terms that are finite. -/
structure InRange (E : Elementary) (p : Params Binary64) : Prop where
  size : (E.size p.codewordSizeBits.toInt).isFinite = true
  square : (E.size p.codewordSquareBits).isFinite = true
  field : (E.size p.fieldSizeBits.toInt).isFinite = true
  aritySum : (E.aritySum p).isFinite = true
  proximity : (E.values p).proximity.isFinite = true
  folding : (E.values p).folding.isFinite = true
  query : (E.values p).query.isFinite = true

theorem guarded_iff : (∀ g ∈ E.guarded p, g.2.isFinite = true) ↔ E.InRange p := by
  simp only [Elementary.guarded, Params.guarded, List.forall_mem_cons, List.not_mem_nil,
    false_implies, implies_true, and_true]
  constructor
  · rintro ⟨hsize, hsquare, hfield, hsum, hproximity, hfolding, hquery⟩
    exact ⟨hsize, hsquare, hfield, hsum, hproximity, hfolding, hquery⟩
  · rintro ⟨hsize, hsquare, hfield, hsum, hproximity, hfolding, hquery⟩
    exact ⟨hsize, hsquare, hfield, hsum, hproximity, hfolding, hquery⟩

/-- Valid parameters for which all checks of the evaluation pass. -/
structure Evaluable (E : Elementary) (p : Params Binary64) : Prop where
  valid : p.validate = .ok ()
  guarded : ∀ g ∈ E.guarded p, g.2.isFinite = true

namespace Evaluable

/-! ### What the checks say -/

theorem inRange (h : E.Evaluable p) : E.InRange p := guarded_iff.mp h.guarded

theorem rateBits_pos (h : E.Evaluable p) : 0 < p.rateBits.toInt :=
  (Params.validate_eq_ok_iff.mp h.valid).2.1

theorem queries_pos (h : E.Evaluable p) : p.numQueries ≠ 0 := by
  obtain ⟨-, -, -, -, -, -, -, hqueries⟩ := Params.validate_eq_ok_iff.mp h.valid
  exact hqueries

theorem m_pos (h : E.Evaluable p) : p.m.isFinite = true ∧ (zero false).lt p.m = true := by
  obtain ⟨-, -, -, ⟨hfin, hpos⟩, -⟩ := Params.validate_eq_ok_iff.mp h.valid
  change (ofInt 0).lt p.m = true at hpos
  rw [ofInt_zero] at hpos
  exact ⟨hfin, hpos⟩

/-! ### The rate -/

theorem rate_eq (h : E.Evaluable p) (hexp : E.ExpLaws) :
    (E.values p).rate = twoPow (-p.rateBits.toInt) := by
  have hpos := h.rateBits_pos
  show E.exp2 (-ofInt p.rateBits.toInt) = _
  rw [neg_ofInt (by omega), hexp.eq_twoPow]

/-- A rate that vanishes is found out by the quotient in the folding error. -/
theorem rateBits_le (h : E.Evaluable p) (hexp : E.ExpLaws) : p.rateBits.toInt ≤ 1074 := by
  have hquot := (isFinite_mul (isFinite_div h.inRange.folding).1).1
  have hroot := ne_zero_of_isFinite_div hquot
  by_contra hlarge
  refine hroot ⟨false, ?_⟩
  show (E.values p).rate.sqrt = _
  rw [h.rate_eq hexp, twoPow_of_small (by omega)]
  rfl

theorem rate_spec (h : E.Evaluable p) (hexp : E.ExpLaws) :
    (E.values p).rate.isFinite = true ∧ (zero false).lt (E.values p).rate = true ∧
      (E.values p).rate ≤ ofHalves 1 := by
  have hpos := h.rateBits_pos
  have hle := h.rateBits_le hexp
  rw [h.rate_eq hexp]
  exact ⟨isFinite_twoPow (by omega) (by omega), twoPow_pos (by omega) (by omega),
    twoPow_le_half (by omega)⟩

theorem root_spec (h : E.Evaluable p) (hexp : E.ExpLaws) :
    (E.values p).rate.sqrt.isFinite = true ∧ (zero false).lt (E.values p).rate.sqrt = true := by
  obtain ⟨hfin, hpos, -⟩ := h.rate_spec hexp
  exact ⟨isFinite_sqrt_of_pos hfin hpos, sqrt_pos hfin hpos⟩

/-! ### The chance of a query -/

theorem twice_pos (h : E.Evaluable p) :
    (ofInt 2 * p.m).isFinite = true ∧ (zero false).lt (ofInt 2 * p.m) = true := by
  have hfin : (ofInt 2 * p.m + ofInt 1).isFinite = true :=
    @Params.isFinite_foldingSteps _ E.scalar _ p h.inRange.folding _ (List.mem_cons_self ..)
  exact ⟨(isFinite_add hfin).1, (twice_spec h.m_pos.1 h.m_pos.2).1⟩

theorem isFinite_alpha (h : E.Evaluable p) (hexp : E.ExpLaws) (hpow : E.PowSpecial) :
    (E.values p).alpha.isFinite = true := by
  obtain ⟨hroot, hrootpos⟩ := h.root_spec hexp
  have hrecip := zero_le_recip h.twice_pos.2
  refine isFinite_of_queryPower hpow h.queries_pos ?_ h.inRange.query
  intro hnot
  cases hfin : (ofInt 1 / (ofInt 2 * p.m)).isFinite with
  | false =>
    rw [alpha_formula, eq_inf_of_nonneg hrecip hfin, add_inf _ isFinite_one]
    exact sqrt_mul_inf _
  | true =>
    obtain ⟨hfactor, hone⟩ := one_add_spec hfin hrecip
    refine Or.inl (eq_inf_of_nonneg ?_ hnot)
    exact mul_nonneg (le_of_lt hrootpos) (le_trans (le_of_lt one_pos) hone) hroot hfactor

/-- It is not below the root of the rate. -/
theorem alpha_pos (h : E.Evaluable p) (hexp : E.ExpLaws) (hpow : E.PowSpecial) :
    (zero false).lt (E.values p).alpha = true := by
  obtain ⟨hroot, hrootpos⟩ := h.root_spec hexp
  have hfin := h.isFinite_alpha hexp hpow
  rw [alpha_formula] at hfin ⊢
  have hfactor := (isFinite_mul hfin).2
  have hone := (one_add_spec (isFinite_add hfactor).2 (zero_le_recip h.twice_pos.2)).2
  rw [mul_comm hroot hfactor]
  exact lt_of_lt_of_le hrootpos (le_mul_of_one_le hroot (le_of_lt hrootpos) hfactor hone)

/-! ### The three errors -/

theorem field_spec (h : E.Evaluable p) (hexp : E.ExpLaws) :
    (zero false).lt (E.size p.fieldSizeBits.toInt) = true ∧
      E.size p.fieldSizeBits.toInt ≤ twoPow 1023 := by
  obtain ⟨-, -, -, -, -, -, hpos, -⟩ := Params.validate_eq_ok_iff.mp h.valid
  have hle := hexp.le_of_isFinite h.inRange.field
  rw [size, hexp.eq_twoPow]
  exact ⟨twoPow_pos (by omega) hle, twoPow_le_twoPow (by omega) hle (by decide)⟩

/-- The power of the rate is between zero and a half. -/
theorem power_spec (h : E.Evaluable p) (hexp : E.ExpLaws) (hpow : E.PowLaws) :
    (E.pow (E.values p).rate (ofHalves 3)).isFinite = true ∧
      zero false ≤ E.pow (E.values p).rate (ofHalves 3) ∧
      E.pow (E.values p).rate (ofHalves 3) ≤ ofHalves 1 := by
  obtain ⟨r, hr⟩ := Int.eq_ofNat_of_zero_le (Int.le_of_lt h.rateBits_pos)
  have hrpos := h.rateBits_pos
  have hrle := h.rateBits_le hexp
  obtain ⟨h0, h1⟩ := hpow.pow_rate r (by omega) (by omega)
  rw [← hr, ← h.rate_eq hexp] at h0 h1
  exact ⟨isFinite_of_le_of_le h0 h1 rfl isFinite_half, h0, h1⟩

/-- Twice the power is between zero and one. -/
theorem double_spec (h : E.Evaluable p) (hexp : E.ExpLaws) (hpow : E.PowLaws) :
    InUnit (ofInt 2 * E.pow (E.values p).rate (ofHalves 3)) := by
  obtain ⟨hpfin, hp0, hp1⟩ := h.power_spec hexp hpow
  have hone : ofInt 2 * ofHalves 1 = ofInt 1 := by decide +kernel
  exact ⟨mul_nonneg (le_of_lt ofInt_two_pos) hp0 isFinite_two hpfin,
    hone ▸ mul_le_mul (ofInt_le_ofInt (Int.le_refl 2)) hp1 (le_of_lt ofInt_two_pos) hp0 isFinite_two
      isFinite_half⟩

/-- What the proximity error is divided by is in range. It is positive, since the quotient is
finite. -/
theorem denominator_spec (h : E.Evaluable p) (hexp : E.ExpLaws) (hpow : E.PowLaws) :
    (zero false).lt (E.denominator p) = true ∧ E.denominator p ≤ twoPow 1023 := by
  obtain ⟨hfield, hfield'⟩ := h.field_spec hexp
  have hdouble := h.double_spec hexp hpow
  have htop : (twoPow 1023).isFinite = true := isFinite_twoPow (by decide) (by decide)
  have hle : E.denominator p ≤ twoPow 1023 := by
    rw [denominator_formula, ← one_mul htop]
    exact mul_le_mul hdouble.2 hfield' hdouble.1 (le_of_lt hfield) isFinite_one htop
  have hnonneg : zero false ≤ E.denominator p := by
    rw [denominator_formula]
    exact mul_nonneg hdouble.1 (le_of_lt hfield) hdouble.isFinite h.inRange.field
  have hzero := ne_zero_of_isFinite_div (proximity_formula (E := E) (p := p) ▸ h.inRange.proximity)
  have hfin := isFinite_of_le_of_le hnonneg hle rfl htop
  exact ⟨pos_of_finite hfin (not_lt_of_le hnonneg) hzero, hle⟩

/-- What is divided is not tiny: `m + 1 / 2` is at least a half, and the domain is at least one. -/
theorem twoPow_le_numerator (h : E.Evaluable p) (hexp : E.ExpLaws) :
    twoPow (-7) ≤ Scalar.powNat (p.m + ofHalves 1) 7 * E.size p.codewordSquareBits := by
  obtain ⟨-, -, hsize, -⟩ := Params.validate_eq_ok_iff.mp h.valid
  have hfin := h.inRange.proximity
  rw [proximity_formula] at hfin
  obtain ⟨hpowfin, hsquarefin⟩ := isFinite_mul (isFinite_div hfin).1
  have hbase : twoPow (-1) ≤ p.m + ofHalves 1 := by
    rw [twoPow_neg_one]
    exact (le_add_of_nonneg isFinite_half h.m_pos.1 (le_of_lt h.m_pos.2)).2
  have hsquare : twoPow 0 ≤ E.size p.codewordSquareBits := by
    have hbits : 0 ≤ p.codewordSquareBits := by
      unfold Params.codewordSquareBits
      omega
    rw [size, hexp.eq_twoPow]
    exact twoPow_le_twoPow (by decide) hbits (hexp.le_of_isFinite hsquarefin)
  have hprod : twoPow (-7 + 0) ≤ twoPow (-7) * twoPow 0 :=
    twoPow_add_le (by decide) (by decide) (by decide) (by decide) (by decide) (by decide)
  exact le_trans hprod (mul_le_mul (twoPow_le_powNat hbase (by decide) hpowfin) hsquare
    (twoPow_nonneg _) (twoPow_nonneg _) hpowfin hsquarefin)

theorem proximity_pos (h : E.Evaluable p) (hexp : E.ExpLaws) (hpow : E.PowLaws) :
    (zero false).lt (E.values p).proximity = true := by
  obtain ⟨hden, hden'⟩ := h.denominator_spec hexp hpow
  have hfin := h.inRange.proximity
  rw [proximity_formula] at hfin ⊢
  exact div_pos (isFinite_div hfin).1 (h.twoPow_le_numerator hexp) hden hden'

theorem aritySum_nonneg (h : E.Evaluable p) (hexp : E.ExpLaws) : zero false ≤ E.aritySum p := by
  have hfin := h.inRange.aritySum
  rw [aritySum_formula] at hfin ⊢
  exact foldl_add_nonneg zero_le_neg_zero (sizes_nonneg hexp.nonneg _) hfin

theorem folding_nonneg (h : E.Evaluable p) (hexp : E.ExpLaws) :
    zero false ≤ (E.values p).folding := by
  obtain ⟨hroot, hrootpos⟩ := h.root_spec hexp
  have hfolding := h.inRange.folding
  rw [folding_formula] at hfolding ⊢
  have hsum := (isFinite_div hfolding).1
  have hquot := (isFinite_mul hsum).1
  have hprod := (isFinite_div hquot).1
  obtain ⟨hlist, hsize⟩ := isFinite_mul hprod
  have hlist0 := add_nonneg (le_of_lt h.twice_pos.2) (le_of_lt one_pos) hlist
  have hsize0 := add_nonneg (hexp.nonneg _) (le_of_lt one_pos) hsize
  have hquot0 := div_nonneg hprod (mul_nonneg hlist0 hsize0 hlist hsize) hroot hrootpos
  have hsum0 := mul_nonneg hquot0 (h.aritySum_nonneg hexp) hquot (isFinite_mul hsum).2
  exact div_nonneg hsum hsum0 h.inRange.field (h.field_spec hexp).1

theorem query_nonneg (h : E.Evaluable p) (hexp : E.ExpLaws) (hpow : E.PowLaws) :
    zero false ≤ (E.values p).query := by
  have halpha := le_of_lt (h.alpha_pos hexp hpow.toPowSpecial)
  have hfin := h.inRange.query
  show zero false ≤ E.queryPower (E.values p).alpha p.numQueries
  change (E.queryPower (E.values p).alpha p.numQueries).isFinite = true at hfin
  rcases Nat.lt_or_ge p.numQueries.toNat (2 ^ 31) with hlt | hge
  · rw [queryPower_eq_powNat hlt] at hfin ⊢
    exact powNat_nonneg halpha hfin
  · have hpower : E.queryPower (E.values p).alpha p.numQueries =
        E.pow (E.values p).alpha (ofInt p.numQueries.toNat) := if_neg (Nat.not_lt.mpr hge)
    rw [hpower]
    exact hpow.pow_nonneg _ _ halpha (by omega) p.numQueries.toNat_lt

end Evaluable

/-! ### The bound -/

/-- What holds of the terms of valid parameters. -/
structure Meaningful (E : Elementary) (p : Params Binary64) (t : Terms Binary64) : Prop where
  /-- The rate is positive and at most a half. -/
  rate_pos : (zero false).lt t.rate = true
  rate_le_half : t.rate ≤ ofHalves 1
  /-- The chance of a query is positive and finite. -/
  isFinite_alpha : t.alpha.isFinite = true
  alpha_pos : (zero false).lt t.alpha = true
  /-- The proximity error does not vanish, and the other two are not negative. -/
  proximity_pos : (zero false).lt t.proximity = true
  folding_nonneg : zero false ≤ t.folding
  query_nonneg : zero false ≤ t.query
  /-- The sum of the terms, which may be out of range, is not below any of them. -/
  proximity_le_total : t.proximity ≤ t.proximity + t.folding + t.query
  folding_le_total : t.folding ≤ t.proximity + t.folding + t.query
  query_le_total : t.query ≤ t.proximity + t.folding + t.query
  /-- All values on the way were finite. -/
  isFinite_intermediates : ∀ y ∈ E.intermediates p, y.isFinite = true
  /-- No divisor was zero. -/
  divisors_pos : ∀ d ∈ E.divisors p, (zero false).lt d = true

theorem Evaluable.meaningful (h : E.Evaluable p) (hexp : E.ExpLaws) (hpow : E.PowLaws) :
    E.Meaningful p (E.values p) := by
  have hproximity := h.proximity_pos hexp hpow
  have hfolding := h.folding_nonneg hexp
  have hquery := h.query_nonneg hexp hpow
  have halpha := h.isFinite_alpha hexp hpow.toPowSpecial
  obtain ⟨hden, hden'⟩ := h.denominator_spec hexp hpow
  obtain ⟨-, hrate, hrate'⟩ := h.rate_spec hexp
  obtain ⟨hle, hle', hle''⟩ := le_add_add (le_of_lt hproximity) hfolding hquery h.inRange.proximity
    h.inRange.folding h.inRange.query
  have hdenfin := isFinite_of_le_of_le (le_of_lt hden) hden' rfl
    (isFinite_twoPow (by decide) (by decide))
  refine {
    rate_pos := hrate
    rate_le_half := hrate'
    isFinite_alpha := halpha
    alpha_pos := h.alpha_pos hexp hpow.toPowSpecial
    proximity_pos := hproximity
    folding_nonneg := hfolding
    query_nonneg := hquery
    proximity_le_total := hle
    folding_le_total := hle'
    query_le_total := hle''
    isFinite_intermediates :=
      (@Params.isFinite_intermediates _ E.scalar _ p h.guarded).mpr ⟨halpha, hdenfin⟩
    divisors_pos := ?_ }
  simp only [divisors, Params.divisors, List.forall_mem_cons]
  exact ⟨h.twice_pos.2, hden, (h.root_spec hexp).2, (h.field_spec hexp).1, by simp⟩

/-- **The bound on valid parameters.** If validation accepts the parameters, then terms that exist
are meaningful, and a bound that is returned is a positive finite number. -/
theorem valid_bound (hexp : E.ExpLaws) (hpow : E.PowLaws) (p : Params Binary64) :
    (p.validate = .ok () → ∀ t, E.terms p = .ok t → E.Meaningful p t) ∧
      ∀ v, E.boundOfValid p = .ok v → v.isFinite = true ∧ (zero false).lt v = true := by
  have hterms : p.validate = .ok () → ∀ t, E.terms p = .ok t → E.Meaningful p t := by
    intro hvalid t ht
    obtain ⟨-, -, hguarded, rfl⟩ := terms_eq_ok_iff_guarded.mp ht
    exact Evaluable.meaningful ⟨hvalid, hguarded⟩ hexp hpow
  refine ⟨hterms, ?_⟩
  intro v hv
  rw [boundOfValid_eq_match] at hv
  cases hvalid : p.validate with
  | error e => simp [hvalid] at hv
  | ok u =>
    simp only [hvalid] at hv
    obtain ⟨t, ht, rfl, hfin⟩ := bound_eq_ok_iff_terms.mp hv
    have hmean := hterms hvalid t ht
    exact ⟨hfin, lt_of_lt_of_le hmean.proximity_pos hmean.proximity_le_total⟩

theorem validate_quarterCode : quarterCode.validate = .ok () :=
  Params.validate_eq_ok_iff.mpr ⟨by decide, by decide, by decide,
    ⟨isFinite_one, by decide +kernel⟩, by simp [quarterCode], rfl, by decide, by decide⟩

theorem valid_bound_quarterCode :
    (∃ t, whole.terms quarterCode = .ok t ∧ whole.Meaningful quarterCode t) ∧
      ∃ v, whole.boundOfValid quarterCode = .ok v ∧ v.isFinite = true ∧
        (zero false).lt v = true := by
  obtain ⟨v, hv⟩ := exists_bound_quarterCode
  have hok : whole.boundOfValid quarterCode = .ok v := by
    rw [boundOfValid_eq_match, validate_quarterCode, hv]
  obtain ⟨hmean, hpos⟩ := valid_bound expLaws_whole powLaws_whole quarterCode
  exact ⟨⟨_, terms_quarterCode, hmean validate_quarterCode _ terms_quarterCode⟩, v, hok,
    hpos v hok⟩

end Elementary

end FriBound
