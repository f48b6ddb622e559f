import FriBound.Proofs.Exp2Size
import FriBound.Proofs.Log2Curve
import FriBound.Proofs.LogOrder
import FriBound.Proofs.LogSumRange
import FriBound.Proofs.NoFolding

/-!
# The order of the logarithm

From one on, the computed logarithm does not fall. Its two formulas are sums that are rounded once,
up to a small error of their parts, and what they are near to grows by more than twice that error
from one number to the next (`cellLog_add_le`): within a cell and close to one since the slope is
at least one, at the ends of the cells by the table. So each result is at least the one before.

## Main results

* `sumNear_log2Sum`, `sumNear_log2NearOne` — the error of the two formulas
* `Binary64.log2_mono` — the order, from one on
* `Binary64.log2_le_of_isFinite` — the size
* `Elementary.orderLaws_tabulated`, `Elementary.skipLaws_tabulated`,
  `Elementary.rangeLaws_tabulated` — the functions of this library obey the laws that ask for them
-/

namespace FriBound

section Formula

open Binary64 (toReal)

variable {ρ η μ α β γ δ : ℝ} {r h l a b c d : Binary64}

/-! ### The parts of the formulas -/

theorem approx_linear (hr : Approx (1 / 22) (1 / 2 ^ 56) ρ r) (ha : Approx 1 0 α a)
    (hb : Approx 1 0 β b) : Approx (23 / 22) (1 / 2 ^ 52) (α + ρ * β) (a + r * b) := by
  have hprod := hr.mul hb (d := 1 / 22) (g := 3 / 2 ^ 57) (by norm_num)
  exact ha.add hprod (by norm_num)

/-- The square and the fourth power. -/
theorem approx_powers (hr : Approx (1 / 22) (1 / 2 ^ 56) ρ r) :
    Approx (1 / 484) (1 / 2 ^ 59) (ρ * ρ) (r * r) ∧
      Approx (1 / 2 ^ 17) (1 / 2 ^ 66) (ρ * ρ * (ρ * ρ)) (r * r * (r * r)) := by
  have hsquare : Approx (1 / 484) (1 / 2 ^ 59) (ρ * ρ) (r * r) := hr.mul hr (by norm_num)
  exact ⟨hsquare, hsquare.mul hsquare (by norm_num)⟩

theorem approx_cubic (hr : Approx (1 / 22) (1 / 2 ^ 56) ρ r) (ha : Approx 1 0 α a)
    (hb : Approx 1 0 β b) (hc : Approx 1 0 γ c) (hd : Approx 1 0 δ d) :
    Approx (21 / 20) (1 / 2 ^ 51) (α + ρ * β + ρ * ρ * (γ + ρ * δ))
      (a + r * b + r * r * (c + r * d)) := by
  have hprod := (approx_powers hr).1.mul (approx_linear hr hc hd) (d := 1 / 460) (g := 5 / 2 ^ 60)
    (by norm_num)
  exact (approx_linear hr ha hb).add hprod (by norm_num)

/-- The leading part and the rest of `r`, times a constant in two parts. -/
theorem approx_twoParts (hr : Approx (1 / 22) (1 / 2 ^ 56) ρ r) (hh : Approx (3 / 2) 0 η h)
    (hl : Approx (1 / 2 ^ 30) 0 μ l) :
    Approx (1 / 13) (10 / 2 ^ 60) ((r.leading 32).toReal * η) (r.leading 32 * h) ∧
      Approx (1 / 2 ^ 22) (1 / 2 ^ 70) ((r.toReal - (r.leading 32).toReal) * η + ρ * μ)
        ((r - r.leading 32) * h + r * l) := by
  have hsize : |r.toReal| ≤ 1 / 21 := hr.abs_toReal_le.trans (by norm_num)
  have hcut : |r.toReal - (r.leading 32).toReal| ≤ 1 / 2 ^ 24 := by
    refine (Binary64.toReal_sub_leading_le hr.isFinite 32).trans ?_
    linarith [unit_le]
  have hexact := Approx.exact hr.isFinite hsize
  have hlead := hexact.of_near (Binary64.isFinite_leading hr.isFinite 32) hcut
    (c := 1 / 21 + 1 / 2 ^ 24) le_rfl
  have hrest := hexact.sub_of hlead hcut (g := 1 / 2 ^ 77) (by norm_num)
  have hprod := hrest.mul hh (d := 3 / 2 ^ 25) (g := 1 / 2 ^ 74) (by norm_num)
  have htiny := hr.mul hl (d := 1 / 2 ^ 34) (g := 1 / 2 ^ 80) (by norm_num)
  exact ⟨hlead.mul hh (by norm_num), hprod.add htiny (by norm_num)⟩

/-- The linear part, taken with the rest of the number instead of its exact value. -/
theorem abs_linear_sub_le (hr : Approx (1 / 22) (1 / 2 ^ 56) ρ r) (hη : |η| ≤ 3 / 2) :
    |r.toReal * η - ρ * η| ≤ 24 / 2 ^ 60 := by
  rw [← sub_mul, abs_mul]
  calc |r.toReal - ρ| * |η| ≤ 1 / 2 ^ 56 * (3 / 2) :=
        mul_le_mul hr.error hη (abs_nonneg _) (by positivity)
    _ = 24 / 2 ^ 60 := by norm_num

variable {t : Binary64} {τ α₀ α₁ α₂ α₃ α₄ α₅ : ℝ} {a₀ a₁ a₂ a₃ a₄ a₅ : Binary64}

/-- **By cells**, the computed logarithm is one rounding away from what the formula says. -/
theorem sumNear_log2Sum (hr : Approx (1 / 22) (1 / 2 ^ 56) ρ r) (ht : Approx (2 ^ 11) 0 τ t)
    (hh : Approx (3 / 2) 0 η h) (hl : Approx (1 / 2 ^ 30) 0 μ l) (ha₀ : Approx 1 0 α₀ a₀)
    (ha₁ : Approx 1 0 α₁ a₁) (ha₂ : Approx 1 0 α₂ a₂) (ha₃ : Approx 1 0 α₃ a₃)
    (ha₄ : Approx 1 0 α₄ a₄) (ha₅ : Approx 1 0 α₅ a₅) :
    SumNear (1 / 2 ^ 54) (τ + curve (η + μ) [α₀, α₁, α₂, α₃, α₄, α₅] ρ)
      (t - (t + r.leading 32 * h) + r.leading 32 * h + ((r - r.leading 32) * h + r * l) +
        r * r * (a₀ + r * a₁ + r * r * (a₂ + r * a₃) + r * r * (r * r) * (a₄ + r * a₅)) +
        (t + r.leading 32 * h)) := by
  obtain ⟨hlog, hrest⟩ := approx_twoParts hr hh hl
  obtain ⟨hsquare, hfourth⟩ := approx_powers hr
  have hpoly := (approx_cubic hr ha₀ ha₁ ha₂ ha₃).add
    (hfourth.mul (approx_linear hr ha₄ ha₅) (d := 1 / 2 ^ 16) (g := 1 / 2 ^ 64) (by norm_num))
    (d := 11 / 10) (g := 1 / 2 ^ 50) (by norm_num)
  have hcurve := hsquare.mul hpoly (d := 1 / 400) (g := 6 / 2 ^ 60) (by norm_num)
  -- The leading part as it is: what its sum with `t` has lost is added again.
  have hpart := Approx.exact hlog.isFinite
    (hlog.abs_toReal_le.trans (by norm_num : _ ≤ (1 : ℝ) / 12))
  have hhigh := ht.add hpart (d := 2 ^ 12) (g := 1 / 2 ^ 41) (by norm_num)
  have hlost := ht.rest hpart ((abs_sub_comm _ _).trans_le hhigh.error) (g := 11 / 2 ^ 60)
    (by norm_num)
  have hlow := (hlost.add hrest (d := 1 / 2 ^ 21) (g := 12 / 2 ^ 60) (by norm_num)).add hcurve
    (d := 1 / 399) (g := 19 / 2 ^ 60) (by norm_num)
  refine ⟨_, _, rfl, hlow.isFinite, hhigh.isFinite, ?_⟩
  have hlinear := abs_linear_sub_le hr hh.size
  have herror := hlow.error
  have hpart := hlog.error
  have hpoly : curve (η + μ) [α₀, α₁, α₂, α₃, α₄, α₅] ρ = ρ * η + ρ * μ +
      ρ * ρ * (α₀ + ρ * α₁ + ρ * ρ * (α₂ + ρ * α₃) + ρ * ρ * (ρ * ρ) * (α₄ + ρ * α₅)) := by
    simp only [curve, horner, List.foldr_cons, List.foldr_nil]
    ring
  rw [hpoly]
  rw [abs_le] at hlinear herror hpart ⊢
  constructor <;> linarith

variable {β₀ β₁ β₂ β₃ β₄ β₅ β₆ β₇ β₈ β₉ : ℝ} {b₀ b₁ b₂ b₃ b₄ b₅ b₆ b₇ b₈ b₉ : Binary64}

/-- **Close to one**, it is so as well. -/
theorem sumNear_log2NearOne (hr : Approx (1 / 22) (1 / 2 ^ 56) ρ r)
    (hh : Approx (3 / 2) 0 η h) (hl : Approx (1 / 2 ^ 30) 0 μ l) (hb₀ : Approx 1 0 β₀ b₀)
    (hb₁ : Approx 1 0 β₁ b₁) (hb₂ : Approx 1 0 β₂ b₂) (hb₃ : Approx 1 0 β₃ b₃)
    (hb₄ : Approx 1 0 β₄ b₄) (hb₅ : Approx 1 0 β₅ b₅) (hb₆ : Approx 1 0 β₆ b₆)
    (hb₇ : Approx 1 0 β₇ b₇) (hb₈ : Approx 1 0 β₈ b₈) (hb₉ : Approx 1 0 β₉ b₉) :
    SumNear (1 / 2 ^ 54) (curve (η + μ) [β₀, β₁, β₂, β₃, β₄, β₅, β₆, β₇, β₈, β₉] ρ)
      (r.leading 32 * h + r * r * (b₀ + r * b₁) +
        ((r - r.leading 32) * h + r * l +
          (r.leading 32 * h - (r.leading 32 * h + r * r * (b₀ + r * b₁)) + r * r * (b₀ + r * b₁)) +
          r * r * (r * r) * (b₂ + r * b₃ + r * r * (b₄ + r * b₅)
            + r * r * (r * r) * (b₆ + r * b₇ + r * r * (b₈ + r * b₉))))) := by
  obtain ⟨hlog, hrest⟩ := approx_twoParts hr hh hl
  obtain ⟨hsquare, hfourth⟩ := approx_powers hr
  have hquadratic := hsquare.mul (approx_linear hr hb₀ hb₁) (d := 1 / 460) (g := 5 / 2 ^ 60)
    (by norm_num)
  have hinner := hfourth.mul (approx_cubic hr hb₆ hb₇ hb₈ hb₉) (d := 1 / 2 ^ 16) (g := 1 / 2 ^ 64)
    (by norm_num)
  have htail := (approx_cubic hr hb₂ hb₃ hb₄ hb₅).add hinner (d := 11 / 10) (g := 1 / 2 ^ 50)
    (by norm_num)
  have hcurve := hfourth.mul htail (d := 1 / 2 ^ 16) (g := 1 / 2 ^ 65) (by norm_num)
  -- Both summands of the leading part as they are.
  have hfirst := Approx.exact hlog.isFinite
    (hlog.abs_toReal_le.trans (by norm_num : _ ≤ (1 : ℝ) / 12))
  have hsecond := Approx.exact hquadratic.isFinite
    (hquadratic.abs_toReal_le.trans (by norm_num : _ ≤ (1 : ℝ) / 450))
  have hy := hfirst.add hsecond (d := 1 / 11) (g := 1 / 2 ^ 56) (by norm_num)
  have hlost := hfirst.rest hsecond ((abs_sub_comm _ _).trans_le hy.error) (g := 1 / 2 ^ 61)
    (by norm_num)
  have hlow := (hrest.add hlost (d := 1 / 2 ^ 21) (g := 1 / 2 ^ 60) (by norm_num)).add hcurve
    (d := 1 / 2 ^ 15) (g := 2 / 2 ^ 60) (by norm_num)
  refine ⟨_, _, rfl, hy.isFinite, hlow.isFinite, ?_⟩
  have hlinear := abs_linear_sub_le hr hh.size
  have herror := hlow.error
  have hpart := hlog.error
  have hpart' := hquadratic.error
  have hpoly : curve (η + μ) [β₀, β₁, β₂, β₃, β₄, β₅, β₆, β₇, β₈, β₉] ρ = ρ * η + ρ * μ +
      ρ * ρ * (β₀ + ρ * β₁) + ρ * ρ * (ρ * ρ) * (β₂ + ρ * β₃ + ρ * ρ * (β₄ + ρ * β₅) +
        ρ * ρ * (ρ * ρ) * (β₆ + ρ * β₇ + ρ * ρ * (β₈ + ρ * β₉))) := by
    simp only [curve, horner, List.foldr_cons, List.foldr_nil]
    ring
  rw [hpoly]
  rw [abs_le] at hlinear herror hpart hpart' ⊢
  constructor <;> linarith

end Formula

namespace Binary64

variable {x y : Binary64} {q : ℕ} {e : ℤ}

/-! ### The formula by cells -/

/-- A number with 42 places after the point, as a multiple of the last of them. -/
theorem exists_place_of_den {l : Binary64} (hl : l.isFinite = true) (hsize : |l.toRat| ≤ 1)
    (hden : (l.toRat * 2 ^ 42).den = 1) :
    ∃ n : ℤ, l.place = some (n * (2 ^ (places - 42) : ℕ)) ∧ n.natAbs ≤ 2 ^ 42 := by
  obtain ⟨a, ha, -⟩ := isFinite_iff_place.mp hl
  have hvalue : l.toRat * unitsPerOne = a := by
    have hunits : (unitsPerOne : ℚ) ≠ 0 := Nat.cast_ne_zero.mpr unitsPerOne_pos.ne'
    rw [toRat, ha, Option.getD_some, div_mul_cancel₀ _ hunits]
  obtain ⟨n, hn⟩ : ∃ n : ℤ, l.toRat * 2 ^ 42 = n := ⟨_, (Rat.den_eq_one_iff _).mp hden |>.symm⟩
  refine ⟨n, ?_, ?_⟩
  · have hcast : (a : ℚ) = n * (2 ^ (places - 42) : ℕ) := by
      rw [← hvalue, ← hn, unitsPerOne_eq_mul (k := 42) (by decide)]
      push_cast
      ring
    rw [ha, Option.some.injEq]
    exact_mod_cast hcast
  · have hcast : |(n : ℚ)| ≤ 2 ^ 42 := by
      rw [← hn, abs_mul, abs_of_pos (by positivity : (0 : ℚ) < 2 ^ 42)]
      linarith
    have hint : |n| ≤ 2 ^ 42 := by exact_mod_cast hcast
    rw [Int.abs_eq_natAbs] at hint
    exact_mod_cast hint

/-- The whole part and the logarithm of the base point are added exactly. -/
theorem approx_base {k : ℤ} {l : Binary64} (hk : k.natAbs ≤ 1024) (hl : l.isFinite = true)
    (hsize : |l.toRat| ≤ 1) (hden : (l.toRat * 2 ^ 42).den = 1) :
    Approx (2 ^ 11) 0 (k + l.toRat) (ofInt k + l) := by
  obtain ⟨n, ha, hn⟩ := exists_place_of_den hl hsize hden
  have hsum : (k * unitsPerOne + n * (2 ^ (places - 42) : ℕ)).natAbs =
      (k * 2 ^ 42 + n).natAbs * 2 ^ (places - 42) := by
    have hfactor : k * unitsPerOne + n * (2 ^ (places - 42) : ℕ) =
        (k * 2 ^ 42 + n) * (2 ^ (places - 42) : ℕ) := by
      rw [unitsPerOne_eq_mul (k := 42) (by decide), Nat.cast_mul, Nat.cast_pow, Nat.cast_ofNat]
      ring
    rw [hfactor, Int.natAbs_mul, Int.natAbs_natCast]
  have hdigits : (k * 2 ^ 42 + n).natAbs ≤ 2 ^ 53 := by omega
  have hlimit : (k * unitsPerOne + n * (2 ^ (places - 42) : ℕ)).natAbs < unitLimit := by
    rw [hsum]
    calc _ ≤ 2 ^ 53 * 2 ^ (places - 42) := Nat.mul_le_mul_right _ hdigits
      _ < 2 ^ 53 * unitsPerOne := by
        refine Nat.mul_lt_mul_of_pos_left ?_ (by decide)
        rw [unitsPerOne_eq]
        exact Nat.pow_lt_pow_right Nat.one_lt_two (by decide)
      _ = 2 ^ (53 + places) := (two_pow_add_places 53).symm
      _ < unitLimit := two_pow_lt_unitLimit (by decide)
  have hexact : (ofInt k + l).place = some (k * unitsPerOne + n * (2 ^ (places - 42) : ℕ)) :=
    place_add_of_exact (Within.isFinite (e := 10) (Within.ofInt (by omega)) (by decide)) hl
      (place_ofInt_of_short (by omega)) ha ⟨_, _, hdigits, hsum⟩ hlimit.le
  have hfin := isFinite_iff_place.mpr ⟨_, hexact, hlimit⟩
  have hreal : (ofInt k + l).toReal = k + l.toRat := by
    rw [toReal_of_place hexact hfin, cast_toRat hl, toReal_of_place ha hl]
    push_cast
    rw [add_mul, mul_assoc, unitsPerOne_mul_unit, mul_one]
  rw [← hreal]
  refine .exact hfin ?_
  have hkreal := abs_cast_le (c := 1024) hk (by norm_num)
  have hlreal : |(l.toRat : ℝ)| ≤ 1 := by exact_mod_cast hsize
  rw [hreal]
  linarith [abs_add_le (k : ℝ) l.toRat]

/-- The rest of a number after its base point. -/
theorem approx_cellRest (hq : 2 ^ 52 ≤ q ∧ q < 2 ^ 53) :
    Approx (1 / 22) (1 / 2 ^ 56) (cellRest (q / 2 ^ 46) q)
      (((ofInt q).scale (-cellPlaces (q / 2 ^ 46)) - ofBits (log2Row (q / 2 ^ 46)).2.2.1 -
        ofBits (log2Row (q / 2 ^ 46)).2.2.2) * ofBits (log2Row (q / 2 ^ 46)).1) := by
  have hcell : 64 ≤ q / 2 ^ 46 ∧ q / 2 ^ 46 < 128 := by omega
  obtain ⟨⟨hfactor, -, hfactor'⟩, -, ⟨hpoint, hpoint', -⟩, hlow, hlow'⟩ :=
    rows_close (q / 2 ^ 46) hcell.2 hcell.1
  have hnear := near_point hcell (q := q) (by omega)
  have hplaces : 52 ≤ cellPlaces (q / 2 ^ 46) ∧ cellPlaces (q / 2 ^ 46) ≤ places := by
    rw [cellPlaces, places]
    split <;> omega
  have hrest : (cellRest (q / 2 ^ 46) q : ℝ) =
      (q / 2 ^ cellPlaces (q / 2 ^ 46) - (ofBits (log2Row (q / 2 ^ 46)).2.2.1).toRat -
        (ofBits (log2Row (q / 2 ^ 46)).2.2.2).toRat) * (ofBits (log2Row (q / 2 ^ 46)).1).toRat := by
    rw [cellRest]
    push_cast
    rfl
  rw [hrest]
  generalize cellPlaces (q / 2 ^ 46) = p at *
  have hdigits : Approx 2 0 (q / 2 ^ p) ((ofInt q).scale (-p)) := by
    refine approx_digits hq.2 hplaces.2 ?_
    rw [div_le_iff₀ (by positivity)]
    calc (q : ℝ) ≤ 2 * 2 ^ 52 := by
          have hcast : (q : ℝ) < 2 ^ 53 := by exact_mod_cast hq.2
          linarith
      _ ≤ 2 * 2 ^ p := by
          have hpow := pow_le_pow_right₀ (one_le_two (α := ℝ)) hplaces.1
          linarith
  have hnear' : |(q : ℝ) / 2 ^ p - (ofBits (log2Row (q / 2 ^ 46)).2.2.1).toRat| ≤ 1 / 2 ^ 6 := by
    have hcast : ((|(q : ℚ) / 2 ^ p - (ofBits (log2Row (q / 2 ^ 46)).2.2.1).toRat| : ℚ) : ℝ) ≤
        (1 / 2 ^ 6 : ℚ) := Rat.cast_le.mpr hnear
    push_cast at hcast
    exact hcast
  have hfirst := hdigits.sub_of (approx_toRat (c := 2) ⟨hpoint, hpoint'⟩ (by norm_num)) hnear'
    (g := 1 / 2 ^ 59) (by norm_num)
  have hsecond := hfirst.sub (approx_toRat (c := 1 / 2 ^ 50) ⟨hlow, hlow'⟩ (by norm_num))
    (d := 1 / 60) (g := 5 / 2 ^ 60) (by norm_num)
  exact hsecond.mul (approx_toRat (c := 3 / 2) ⟨hfactor, hfactor'⟩ (by norm_num)) (by norm_num)

theorem sumNear_log2Cell (hq : 2 ^ 52 ≤ q ∧ q < 2 ^ 53) (he : 0 ≤ e ∧ e ≤ 1023) :
    SumNear (1 / 2 ^ 54) (e + cellLog (q / 2 ^ 46) q) (log2Cell q e) := by
  obtain ⟨hcoef, -, hh, hl, -⟩ := coefficients_fit
  have hcoef := fun a ha => approx_toRat (c := 1) (hcoef a ha) Rat.cast_one
  simp only [List.forall_mem_cons] at hcoef
  obtain ⟨ha₀, ha₁, ha₂, ha₃, ha₄, ha₅, -⟩ := hcoef
  obtain ⟨-, ⟨hlog, hlog', hden⟩, -⟩ := rows_close (q / 2 ^ 46) (by omega) (by omega)
  have hbase := approx_base (k := if decide (88 ≤ q / 2 ^ 46) then e + 1 else e)
    (by split <;> omega) hlog hlog' hden
  have hsum := sumNear_log2Sum (approx_cellRest hq) hbase
    (approx_toRat (c := 3 / 2) hh (by norm_num)) (approx_toRat (c := 1 / 2 ^ 30) hl (by norm_num))
    ha₀ ha₁ ha₂ ha₃ ha₄ ha₅
  have hplaces : -(cellPlaces (q / 2 ^ 46) : ℤ) =
      if decide (88 ≤ q / 2 ^ 46) then -53 else -52 := by
    rw [cellPlaces]
    by_cases h : 88 ≤ q / 2 ^ 46 <;> simp [h]
  have hvalue : (e : ℝ) + cellLog (q / 2 ^ 46) q =
      (if decide (88 ≤ q / 2 ^ 46) then e + 1 else e : ℤ) +
        (ofBits (log2Row (q / 2 ^ 46)).2.1).toRat +
        curve (Log2.invLn2High.toRat + Log2.invLn2Low.toRat : ℝ)
          [(Log2.a₀.toRat : ℝ), Log2.a₁.toRat, Log2.a₂.toRat, Log2.a₃.toRat, Log2.a₄.toRat,
            Log2.a₅.toRat] (cellRest (q / 2 ^ 46) q) := by
    have hcurve := cast_curve invLn2 cellCoefficients (cellRest (q / 2 ^ 46) q)
    simp only [cellCoefficients, List.map_cons, List.map_nil, invLn2, Rat.cast_add] at hcurve
    rw [cellLog]
    push_cast
    rw [← hcurve, cellPlaces]
    by_cases h : 88 ≤ q / 2 ^ 46
    · simp [h, cellCoefficients, invLn2]
      ring
    · simp [h, cellCoefficients, invLn2]
      ring
  rw [hplaces] at hsum
  rw [hvalue]
  exact hsum

/-! ### Close to one -/

/-- The ends of the range. At the upper one, the formula by cells has not fallen behind. -/
theorem nearOne_ends : nearOneFrom ≤ ofInt 1 ∧
    (nearOneTo.isFinite = true ∧ nearOneTo.toRat ≤ 23 / 22 ∧
      nearOneTo.place = some ((0x10b55900000000 * 2 ^ (places - 52) : ℕ) : ℤ)) ∧
    curve invLn2 nearOneCoefficients (nearOneTo.toRat - 1) ≤
      cellLog (0x10b55900000000 / 2 ^ 46) 0x10b55900000000 + 1 / 2 ^ 53 := by
  decide +kernel

theorem nearOneTo_spec : nearOneTo.isFinite = true ∧ nearOneTo.toRat ≤ 23 / 22 ∧
    nearOneTo.place = some ((0x10b55900000000 * 2 ^ (places - 52) : ℕ) : ℤ) :=
  nearOne_ends.2.1

theorem nearOne_bounds (hone : ofInt 1 ≤ x) (hx : x ≤ nearOneTo) :
    x.isFinite = true ∧ 1 ≤ x.toReal ∧ x.toReal ≤ nearOneTo.toReal := by
  obtain ⟨htofin, -⟩ := nearOneTo_spec
  have hfin := isFinite_of_le_of_le hone hx isFinite_one htofin
  have hlow := toReal_le_toReal hone isFinite_one hfin
  rw [toReal_ofInt (by decide), Int.cast_one] at hlow
  exact ⟨hfin, hlow, toReal_le_toReal hx hfin htofin⟩

theorem toReal_nearOneTo_le : nearOneTo.toReal ≤ 23 / 22 := by
  obtain ⟨htofin, hto, -⟩ := nearOneTo_spec
  rw [← cast_toRat htofin]
  exact (Rat.cast_le.mpr hto).trans_eq (by norm_num)

/-- From one to the end of the range, the values grow. -/
theorem curve_nearOne_add_le {s t : ℝ} (hs : 1 ≤ s) (hst : s + 1 / 2 ^ 52 ≤ t)
    (ht : t ≤ nearOneTo.toReal) :
    curve (invLn2 : ℝ) (nearOneCoefficients.map (↑)) (s - 1) + 1 / 2 ^ 52 ≤
      curve (invLn2 : ℝ) (nearOneCoefficients.map (↑)) (t - 1) := by
  obtain ⟨-, -, -, -, hslope⟩ := coefficients_fit
  have hslope' : (36 / 25 : ℝ) ≤ invLn2 :=
    (by norm_num : (36 / 25 : ℝ) = (36 / 25 : ℚ)).trans_le (Rat.cast_le.mpr hslope)
  have hcoef' : ∀ b ∈ nearOneCoefficients.map ((↑) : ℚ → ℝ), |b| ≤ 1 := by
    intro b hb
    obtain ⟨a, ha, rfl⟩ := List.mem_map.mp hb
    exact_mod_cast abs_coefficients_le.2 a ha
  have hto := toReal_nearOneTo_le
  have hpos : (0 : ℝ) < 1 / 2 ^ 52 := by positivity
  have hrange : ∀ u : ℝ, 1 ≤ u → u ≤ t → |u - 1| ≤ 1 / 16 := by
    intro u hu hut
    rw [abs_of_nonneg (by linarith)]
    linarith
  have hgrow := curve_add_le hslope' hcoef' (hrange s hs (by linarith))
    (hrange t (by linarith) le_rfl)
    (by linarith)
  linarith

theorem sumNear_nearOne (hone : ofInt 1 ≤ x) (hx : x ≤ nearOneTo) :
    SumNear (1 / 2 ^ 54) (curve invLn2 (nearOneCoefficients.map (↑)) (x.toReal - 1))
      (log2NearOne x) := by
  obtain ⟨-, hcoef, hh, hl, -⟩ := coefficients_fit
  have hcoef := fun b hb => approx_toRat (c := 1) (hcoef b hb) Rat.cast_one
  simp only [List.forall_mem_cons] at hcoef
  obtain ⟨hb₀, hb₁, hb₂, hb₃, hb₄, hb₅, hb₆, hb₇, hb₈, hb₉, -⟩ := hcoef
  obtain ⟨hfin, hlow, hhigh⟩ := nearOne_bounds hone hx
  have hto := toReal_nearOneTo_le
  have hX : Approx 2 0 x.toReal x := .exact hfin (by rw [abs_of_nonneg] <;> linarith)
  have hI : Approx 1 0 1 (ofInt 1) :=
    ⟨isFinite_one, by rw [abs_one], by rw [toReal_ofInt (by decide)]; simp⟩
  have hrest := hX.sub_of hI (d := 1 / 22) (g := 1 / 2 ^ 56)
    (by rw [abs_of_nonneg] <;> linarith) (by norm_num)
  have hsum := sumNear_log2NearOne hrest (approx_toRat (c := 3 / 2) hh (by norm_num))
    (approx_toRat (c := 1 / 2 ^ 30) hl (by norm_num)) hb₀ hb₁ hb₂ hb₃ hb₄ hb₅ hb₆ hb₇ hb₈ hb₉
  rw [invLn2, Rat.cast_add]
  exact hsum

/-- Between one and two, numbers are at least the `2 ^ 52`th part of one apart. -/
theorem toReal_add_le_of_lt (hone : ofInt 1 ≤ x) (hxy : x.lt y = true) (hy : y ≤ nearOneTo) :
    x.toReal + 1 / 2 ^ 52 ≤ y.toReal := by
  have htofin := nearOneTo_spec.1
  have hparts : unitsPerOne = 2 ^ 52 * 2 ^ (places - 52) := unitsPerOne_eq_mul (by decide)
  obtain ⟨a, b, ha, hb, hab⟩ := lt_iff_place.mp hxy
  have hda := dvd_place_of_one_le hone ha
  have hdb := dvd_place_of_one_le (le_trans hone (le_of_lt hxy)) hb
  have hstep : a + (2 ^ (places - 52) : ℕ) ≤ b := by
    have := Int.le_of_dvd (by omega) (Int.dvd_sub hdb hda)
    omega
  have hfin := isFinite_of_le_of_le hone (le_trans (le_of_lt hxy) hy) isFinite_one htofin
  have hfin' := isFinite_of_le_of_le (le_trans hone (le_of_lt hxy)) hy isFinite_one htofin
  have hunit := unitsPerOne_mul_unit
  rw [hparts] at hunit
  have hcast : (a : ℝ) + (2 ^ (places - 52) : ℕ) ≤ b := by exact_mod_cast hstep
  rw [toReal_of_place ha hfin, toReal_of_place hb hfin']
  calc a * unit + 1 / 2 ^ 52 = (a + (2 ^ (places - 52) : ℕ)) * unit := by
        push_cast at hunit ⊢
        linear_combination -(1 / 2 ^ 52 : ℝ) * hunit
    _ ≤ b * unit := mul_le_mul_of_nonneg_right hcast unit_pos.le

theorem log2NearOne_mono (hone : ofInt 1 ≤ x) (hxy : x.lt y = true) (hy : y ≤ nearOneTo) :
    log2NearOne x ≤ log2NearOne y := by
  have hyone := le_trans hone (le_of_lt hxy)
  have hgap := toReal_add_le_of_lt hone hxy hy
  refine (sumNear_nearOne hone (le_trans (le_of_lt hxy) hy)).le (sumNear_nearOne hyone hy) ?_
  have hgrow := curve_nearOne_add_le (nearOne_bounds hone (le_trans (le_of_lt hxy) hy)).2.1 hgap
    (nearOne_bounds hyone hy).2.2
  linarith

/-! ### The order -/

theorem units_le_units {m m' : Magnitude} (h : fin false m ≤ fin false m') : m.units ≤ m'.units :=
  Int.ofNat_le.mp ((le_iff_of_place (place_fin _ m) (place_fin _ m')).mp h)

theorem unitsPerOne_le_units {m : Magnitude} (h : ofInt 1 ≤ fin false m) : unitsPerOne ≤ m.units :=
  Int.ofNat_le.mp ((le_iff_of_place place_one (place_fin _ m)).mp h)

/-- A smaller number has a smaller exponent, or the same and no more digits. -/
theorem normalForm_mono {m m' : Magnitude} (hm : m.units ≠ 0) (h : m.units ≤ m'.units) :
    (normalForm m).2 < (normalForm m').2 ∨
      (normalForm m).2 = (normalForm m').2 ∧ (normalForm m).1 ≤ (normalForm m').1 := by
  have hlog : m.units.log2 ≤ m'.units.log2 :=
    (Nat.le_log2 (by omega)).mpr ((Nat.log2_self_le hm).trans h)
  rcases hlog.lt_or_eq with hlt | heq
  · refine Or.inl ?_
    rw [normalForm, normalForm]
    dsimp only
    omega
  · refine Or.inr ?_
    rw [normalForm, normalForm, heq]
    refine ⟨rfl, ?_⟩
    dsimp only
    split
    · exact Nat.div_le_div_right h
    · exact Nat.mul_le_mul_right _ h

/-- The exponent of a number from one on. -/
theorem normalForm_exponent {m : Magnitude} (h : unitsPerOne ≤ m.units) :
    0 ≤ (normalForm m).2 ∧ (normalForm m).2 ≤ 1023 := by
  have hpos := unitsPerOne_pos
  have hlow : places ≤ m.units.log2 := by
    rw [unitsPerOne_eq] at h hpos
    exact (Nat.le_log2 (by omega)).mpr h
  have hhigh := m.small
  rw [unitLimit_eq, ← Nat.log2_lt (by omega), topDigits] at hhigh
  rw [normalForm]
  rw [places] at *
  dsimp only
  omega

theorem cellLog_le_last (hq : 2 ^ 52 ≤ q ∧ q < 2 ^ 53) :
    cellLog (q / 2 ^ 46) q ≤ cellLog 127 (2 ^ 53 - 1) := by
  have hpos : (0 : ℚ) < 1 / 2 ^ 53 := by positivity
  rcases (show q ≤ 2 ^ 53 - 1 by omega).lt_or_eq with hlt | rfl
  · linarith [cellLog_add_le hq.1 hlt (by decide)]
  · exact le_rfl

/-- The values by cells, in the order of exponents and digits. -/
theorem cellLog_lex {f : ℤ} {q' : ℕ} (hq : 2 ^ 52 ≤ q ∧ q < 2 ^ 53)
    (hq' : 2 ^ 52 ≤ q' ∧ q' < 2 ^ 53) (h : e < f ∨ e = f ∧ q < q') :
    (e : ℚ) + cellLog (q / 2 ^ 46) q + 1 / 2 ^ 53 ≤ f + cellLog (q' / 2 ^ 46) q' := by
  have hpos : (0 : ℚ) < 1 / 2 ^ 53 := by positivity
  rcases h with hlt | ⟨rfl, hlt⟩
  · have hlast := cellLog_le_last hq
    have hfirst : cellLog 64 (2 ^ 52) ≤ cellLog (q' / 2 ^ 46) q' := by
      rcases hq'.1.lt_or_eq with hlt | rfl
      · linarith [cellLog_add_le le_rfl hlt hq'.2]
      · exact le_rfl
    have hexp : (e : ℚ) + 1 ≤ f := by exact_mod_cast hlt
    linarith [cellLog_ends.2.1]
  · linarith [cellLog_add_le hq.1 hlt hq'.2]

theorem log2Cell_mono {m m' : Magnitude} (hone : unitsPerOne ≤ m.units) (h : m.units ≤ m'.units) :
    log2Cell (normalForm m).1 (normalForm m).2 ≤ log2Cell (normalForm m').1 (normalForm m').2 := by
  have hpos := unitsPerOne_pos
  have hq := normalForm_bounds (x := m) (by omega)
  have hq' := normalForm_bounds (x := m') (by omega)
  have hsum := sumNear_log2Cell hq (normalForm_exponent hone)
  have hsum' := sumNear_log2Cell hq' (normalForm_exponent (hone.trans h))
  have horder := normalForm_mono (by omega) h
  generalize normalForm m = n at *
  generalize normalForm m' = n' at *
  by_cases heq : n = n'
  · rw [heq]
    exact le_refl hsum'.ne_nan
  have hlex : n.2 < n'.2 ∨ n.2 = n'.2 ∧ n.1 < n'.1 := by
    rcases horder with hlt | ⟨he, hle⟩
    · exact Or.inl hlt
    · refine Or.inr ⟨he, hle.lt_of_ne fun h => heq (Prod.ext h he)⟩
  refine hsum.le hsum' ?_
  have hcast : (((n.2 : ℚ) + cellLog (n.1 / 2 ^ 46) n.1 + 1 / 2 ^ 53 : ℚ) : ℝ) ≤
      ((n'.2 : ℚ) + cellLog (n'.1 / 2 ^ 46) n'.1 : ℚ) := Rat.cast_le.mpr (cellLog_lex hq hq' hlex)
  push_cast at hcast
  linarith

/-- The digits and the exponent of the end of the range. -/
theorem normalForm_nearOneTo : ∃ n : Magnitude, nearOneTo = fin false n ∧ n.units ≠ 0 ∧
    normalForm n = (0x10b55900000000, 0) := by
  obtain ⟨htofin, -, hto⟩ := nearOneTo_spec
  have hpos : ofInt 1 ≤ nearOneTo := by
    refine le_iff_place.mpr ⟨_, _, place_one, hto, ?_⟩
    rw [show unitsPerOne = 2 ^ 52 * 2 ^ (places - 52) from unitsPerOne_eq_mul (by decide)]
    exact Int.ofNat_le.mpr (Nat.mul_le_mul_right _ (by decide))
  obtain ⟨n, hn, hunits⟩ := exists_fin_of_pos htofin (lt_of_lt_of_le one_pos hpos)
  refine ⟨n, hn, hunits, ?_⟩
  rw [hn, place_fin, Option.some.injEq] at hto
  have hn : n.units = 0x10b55900000000 * 2 ^ (places - 52) := Int.ofNat_inj.mp hto
  rw [normalForm, hn]
  decide +kernel

/-- From the end of the range on, the values by cells are above those close to one. -/
theorem log2NearOne_le_log2Cell {m : Magnitude} (hone : ofInt 1 ≤ x) (hx : x.lt nearOneTo = true)
    (hm : nearOneTo ≤ fin false m) :
    log2NearOne x ≤ log2Cell (normalForm m).1 (normalForm m).2 := by
  have hpos := unitsPerOne_pos
  have htofin := nearOneTo_spec.1
  have hunits := unitsPerOne_le_units (le_trans (le_trans hone (le_of_lt hx)) hm)
  have hq := normalForm_bounds (x := m) (by omega)
  obtain ⟨n, hn, hnpos, hnormal⟩ := normalForm_nearOneTo
  have horder : (normalForm n).2 < (normalForm m).2 ∨
      (normalForm n).2 = (normalForm m).2 ∧ (normalForm n).1 ≤ (normalForm m).1 := by
    rw [hn] at hm
    exact normalForm_mono hnpos (units_le_units hm)
  rw [hnormal] at horder
  have hcell : cellLog (0x10b55900000000 / 2 ^ 46) 0x10b55900000000 ≤
      (normalForm m).2 + cellLog ((normalForm m).1 / 2 ^ 46) (normalForm m).1 := by
    have hdigits : (2 : ℕ) ^ 52 ≤ 0x10b55900000000 ∧ 0x10b55900000000 < 2 ^ 53 := by decide
    have hpos : (0 : ℚ) < 1 / 2 ^ 53 := by positivity
    have hlex := cellLog_lex (e := 0) (f := (normalForm m).2) hdigits hq
    rw [Int.cast_zero, zero_add] at hlex
    rcases horder with hlt | ⟨he, hle⟩
    · linarith [hlex (Or.inl hlt)]
    · rcases hle.lt_or_eq with hlt | heq
      · linarith [hlex (Or.inr ⟨he, hlt⟩)]
      · rw [← he, ← heq, Int.cast_zero, zero_add]
  have hgap := toReal_add_le_of_lt hone hx (le_refl (ne_nan_of_isFinite htofin))
  have hgrow := curve_nearOne_add_le (nearOne_bounds hone (le_of_lt hx)).2.1 hgap le_rfl
  refine (sumNear_nearOne hone (le_of_lt hx)).le
    (sumNear_log2Cell hq (normalForm_exponent hunits)) ?_
  have hto : ((curve invLn2 nearOneCoefficients (nearOneTo.toRat - 1) : ℚ) : ℝ) ≤
      ((normalForm m).2 + cellLog ((normalForm m).1 / 2 ^ 46) (normalForm m).1 + 1 / 2 ^ 53 : ℚ) :=
    Rat.cast_le.mpr (by linarith [nearOne_ends.2.2])
  rw [cast_curve, Rat.cast_sub, cast_toRat htofin] at hto
  push_cast at hto
  linarith

/-- Which formula is used from one on. -/
theorem log2_of_one_le {m : Magnitude} (hone : ofInt 1 ≤ fin false m) :
    (fin false m).log2 = if (fin false m).lt nearOneTo then log2NearOne (fin false m)
      else log2Cell (normalForm m).1 (normalForm m).2 := by
  have hunits := unitsPerOne_le_units hone
  have hpos := unitsPerOne_pos
  have hfrom := not_lt_of_le (le_trans nearOne_ends.1 hone)
  rw [log2, if_neg (by omega), if_neg Bool.false_ne_true, hfrom,
    Bool.not_false, Bool.true_and]

/-- The logarithm of a finite number is one rounding away from some value. -/
theorem log2_ne_nan (hone : ofInt 1 ≤ x) : x.log2 ≠ nan := by
  cases hfin : x.isFinite with
  | false =>
    have hinf := eq_inf_of_nonneg (le_trans (le_of_lt one_pos) hone) hfin
    rw [hinf]
    rintro ⟨⟩
  | true =>
    obtain ⟨m, rfl, hm⟩ := exists_fin_of_pos hfin (lt_of_lt_of_le one_pos hone)
    rw [log2_of_one_le hone]
    split
    · exact (sumNear_nearOne hone (le_of_lt ‹_›)).ne_nan
    · exact (sumNear_log2Cell (normalForm_bounds hm)
        (normalForm_exponent (unitsPerOne_le_units hone))).ne_nan

/-- **From one on, the logarithm does not fall.** -/
theorem log2_mono (hone : ofInt 1 ≤ x) (hxy : x ≤ y) : x.log2 ≤ y.log2 := by
  have hyone := le_trans hone hxy
  cases hyfin : y.isFinite with
  | false =>
    have hinf := eq_inf_of_nonneg (le_trans (le_of_lt one_pos) hyone) hyfin
    rw [hinf]
    exact le_inf (log2_ne_nan hone)
  | true =>
    have hxfin := isFinite_of_le_of_le hone hxy isFinite_one hyfin
    obtain ⟨m, rfl, -⟩ := exists_fin_of_pos hxfin (lt_of_lt_of_le one_pos hone)
    obtain ⟨n, rfl, -⟩ := exists_fin_of_pos hyfin (lt_of_lt_of_le one_pos hyone)
    have hunits := units_le_units hxy
    rw [log2_of_one_le hone, log2_of_one_le hyone]
    have htonan := ne_nan_of_isFinite nearOneTo_spec.1
    by_cases hx : (fin false m).lt nearOneTo = true
    · rw [if_pos hx]
      by_cases hy : (fin false n).lt nearOneTo = true
      · rw [if_pos hy]
        rcases hunits.lt_or_eq with hlt | heq
        · refine log2NearOne_mono hone ?_ (le_of_lt hy)
          exact lt_iff_place.mpr ⟨_, _, place_fin _ m, place_fin _ n, Int.ofNat_lt.mpr hlt⟩
        · rw [Magnitude.ext heq]
          exact le_refl (sumNear_nearOne hyone (le_of_lt hy)).ne_nan
      · rw [if_neg hy]
        exact log2NearOne_le_log2Cell hone hx
          (le_of_not_lt (ne_nan_of_isFinite hyfin) htonan (Bool.eq_false_iff.mpr hy))
    · have hle := le_of_not_lt (ne_nan_of_isFinite hxfin) htonan (Bool.eq_false_iff.mpr hx)
      rw [if_neg hx, if_neg (Bool.eq_false_iff.mp (not_lt_of_le (le_trans hle hxy)))]
      exact log2Cell_mono (unitsPerOne_le_units hone) hunits

theorem log2_one : (ofInt 1).log2 = zero false := by
  decide +kernel

theorem log2Cell_le {m : Magnitude} (hone : unitsPerOne ≤ m.units) :
    log2Cell (normalForm m).1 (normalForm m).2 ≤ ofInt 1024 := by
  have hpos := unitsPerOne_pos
  have hq := normalForm_bounds (x := m) (by omega)
  have he := normalForm_exponent hone
  have hword : (ofInt 1024).isFinite = true :=
    Within.isFinite (e := 10) (Within.ofInt (by decide)) (by decide)
  refine (sumNear_log2Cell hq he).le_of_toReal hword ?_
  generalize normalForm m = n at *
  have hvalue : (n.2 : ℚ) + cellLog (n.1 / 2 ^ 46) n.1 ≤ 1024 - 1 / 2 ^ 54 := by
    have hexp : (n.2 : ℚ) ≤ 1023 := by exact_mod_cast he.2
    linarith [cellLog_le_last hq, cellLog_ends.2.2]
  have hcast : (((n.2 : ℚ) + cellLog (n.1 / 2 ^ 46) n.1 : ℚ) : ℝ) ≤ (1024 - 1 / 2 ^ 54 : ℚ) :=
    Rat.cast_le.mpr hvalue
  rw [toReal_ofInt (by decide)]
  push_cast at hcast ⊢
  linarith

/-- The logarithm of a finite number is at most the exponent at which the format ends. -/
theorem log2_le_of_isFinite (hfin : x.isFinite = true) (hone : ofInt 1 ≤ x) :
    x.log2 ≤ ofInt 1024 := by
  have htonan := ne_nan_of_isFinite nearOneTo_spec.1
  have hcells : ∀ {y : Binary64}, y.isFinite = true → ofInt 1 ≤ y → nearOneTo ≤ y →
      y.log2 ≤ ofInt 1024 := by
    intro y hyfin hyone hy
    obtain ⟨m, rfl, -⟩ := exists_fin_of_pos hyfin (lt_of_lt_of_le one_pos hyone)
    rw [log2_of_one_le hyone, if_neg (Bool.eq_false_iff.mp (not_lt_of_le hy))]
    exact log2Cell_le (unitsPerOne_le_units hyone)
  by_cases hx : x.lt nearOneTo = true
  · exact le_trans (log2_mono hone (le_of_lt hx))
      (hcells nearOneTo_spec.1 (le_trans hone (le_of_lt hx)) (le_refl htonan))
  · exact hcells hfin hone
      (le_of_not_lt (ne_nan_of_isFinite hfin) htonan (Bool.eq_false_iff.mpr hx))

end Binary64

namespace Elementary

theorem orderLaws_tabulated : tabulated.OrderLaws where
  toSumLaws := logLaws_tabulated.sumLaws
  log2_one := Binary64.log2_one
  log2_mono _ _ := Binary64.log2_mono

theorem skipLaws_tabulated : tabulated.SkipLaws where
  toSpecialValues := orderLaws_tabulated.toSpecialValues
  exp2_negInf := expLaws_tabulated.exp2_small _ (Binary64.negInf_le (Binary64.ne_nan_of_isFinite
    (Binary64.Within.isFinite (e := 11) (Binary64.Within.ofInt (by decide)) (by decide))))
  log2_nonneg := orderLaws_tabulated.log2_nonneg

theorem rangeLaws_tabulated : tabulated.RangeLaws where
  toSumLaws := orderLaws_tabulated.toSumLaws
  log2_bounds x hfin hone := ⟨orderLaws_tabulated.log2_nonneg x hone,
    Binary64.log2_le_of_isFinite hfin hone⟩

end Elementary

end FriBound
