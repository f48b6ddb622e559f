import FriBound.Binary64.Pow
import FriBound.Proofs.Approximation

/-!
# The sum that makes the logarithm

The logarithm of a number is the sum of a table entry and of `ln (1 + r)`, a polynomial in what is
left of the number. It is returned as a rounded value and what the rounding has lost, and a product
with a large exponent asks for the second part to be far smaller than the first. A bound on sizes is
not enough for that, since table entry and rest may cancel, and next to one all of the logarithm is
small.

So the sum is followed on a scale `m` of its own (`LnInput`): the rest is of the size of `m`, the
table entry may be far larger, and the two together are not below `m / 2`. Every error on the way is
in proportion to `m`. Away from one the scale is a numeral, and next to one, where the table entry
is zero, it is the distance from one.

## Main definitions

* `LnInput` — what the sum is formed of
* `TwoParts` — a value and a rest that is far smaller

## Main results

* `sum_rest_spec` — a sum and what it has lost
* `LnInput.lnSum_spec` — the sum is in two parts, and what it is near to
-/

namespace FriBound

open Binary64 (toReal)

variable {m ρ : ℝ} {x y r rHigh rLow t₁ low₁ : Binary64}

/-! ### Sums with their rest -/

/-- A sum and what it has lost: the rest is far smaller than the sum, if the second summand is
smaller than the first. -/
theorem sum_rest_spec (hx : x.isFinite = true) (hy : y.isFinite = true)
    (hsize : |x.toReal| ≤ 2 ^ 40) (hle : |y.toReal| ≤ |x.toReal| / 8) :
    (x + y).isFinite = true ∧ (x - (x + y) + y).isFinite = true ∧
      |(x + y).toReal - (x.toReal + y.toReal)| ≤ |x.toReal| / 2 ^ 52 ∧
        |(x - (x + y) + y).toReal| ≤ |(x + y).toReal| / 2 ^ 48 := by
  obtain ⟨b, hb⟩ : ∃ b, |x.toReal| = b := ⟨_, rfl⟩
  rw [hb] at hsize hle
  have hX : Approx b 0 x.toReal x := .exact hx hb.le
  have hY : Approx (b / 8) 0 y.toReal y := .exact hy hle
  have hnonneg := hX.size_nonneg
  have hsum := hX.add hY (d := 9 / 8 * b) (g := b / 2 ^ 52)
    ⟨by linarith, by linarith, by linarith⟩
  have hrest := hX.rest_of_sizes hY (d := b / 2 ^ 52) (g := b / 2 ^ 54)
    ⟨by linarith, by linarith, by linarith⟩
  have hlarge : 3 / 4 * b ≤ |(x + y).toReal| := by
    have hsplit := abs_sub_abs_le_abs_sub x.toReal (x + y).toReal
    have hback : |x.toReal - (x + y).toReal| ≤ b / 8 + b / 2 ^ 52 := by
      have hshift : x.toReal - (x + y).toReal =
          x.toReal + y.toReal - (x + y).toReal - y.toReal := by ring
      rw [hshift]
      exact (abs_sub _ _).trans (by linarith [hrest.size])
    linarith
  exact ⟨hsum.isFinite, hrest.isFinite, hb ▸ hsum.error, by linarith [hrest.abs_toReal_le]⟩

/-! ### The powers of the rest -/

variable {a₀ a₁ a₂ a₃ a₄ a₅ a₆ : Binary64}

/-- Up to the third power, each of them as small as the scale and a numeral smaller. -/
theorem approx_lnPowers (hm : 1 / 2 ^ 53 ≤ m ∧ m ≤ 1 / 128)
    (hr : Approx (11 / 10 * m) (m / 2 ^ 50) ρ r) (ha : Approx (1 / 2) 0 a₀.toReal a₀) :
    Approx (1 / 200) (1 / 2 ^ 50) (a₀.toReal * ρ) (a₀ * r) ∧
      Approx (1 / 20000) (1 / 2 ^ 50) (ρ * (a₀.toReal * ρ)) (r * (a₀ * r)) ∧
        Approx (m / 18000) (m / 2 ^ 40) (ρ * (ρ * (a₀.toReal * ρ))) (r * (r * (a₀ * r))) := by
  obtain ⟨hm, hm'⟩ := hm
  have hfirst := (ha.mul hr (d := 11 / 20 * m) (g := m / 2 ^ 45)
    ⟨by linarith, by linarith, by linarith, by linarith⟩).mono (c := 1 / 200) (f := 1 / 2 ^ 50)
      (by linarith) (by linarith)
  have hsecond := (hr.mul hfirst (d := 11 / 2000 * m) (g := m / 2 ^ 44)
    ⟨by linarith, by linarith, by linarith, by linarith⟩).mono (c := 1 / 20000) (f := 1 / 2 ^ 50)
      (by linarith) (by linarith)
  exact ⟨hfirst, hsecond,
    hr.mul hsecond ⟨by linarith, by linarith, by linarith, by linarith⟩⟩

/-- The polynomial from the third power on. -/
theorem approx_lnPolynomial (hm : 1 / 2 ^ 53 ≤ m ∧ m ≤ 1 / 128)
    (hr : Approx (11 / 10 * m) (m / 2 ^ 50) ρ r) (ha : Approx (1 / 2) 0 a₀.toReal a₀)
    (has : ∀ a ∈ [a₁, a₂, a₃, a₄, a₅, a₆], Approx (5 / 4) 0 a.toReal a) :
    (r * (r * (a₀ * r)) * (a₁ + r * a₂ + r * (a₀ * r) * (a₃ + r * a₄ +
        r * (a₀ * r) * (a₅ + r * a₆)))).isFinite = true ∧
      |(r * (r * (a₀ * r)) * (a₁ + r * a₂ + r * (a₀ * r) * (a₃ + r * a₄ +
        r * (a₀ * r) * (a₅ + r * a₆)))).toReal| ≤ m / 10000 := by
  simp only [List.forall_mem_cons] at has
  obtain ⟨h₁, h₂, h₃, h₄, h₅, h₆, -⟩ := has
  obtain ⟨-, hsecond, hthird⟩ := approx_lnPowers hm hr ha
  have hrest : Approx (1 / 100) (1 / 2 ^ 50) ρ r :=
    hr.mono (by linarith [hm.2]) (by linarith [hm.2])
  have hlinear : ∀ {a b : Binary64}, Approx (5 / 4) 0 a.toReal a → Approx (5 / 4) 0 b.toReal b →
      Approx (127 / 100) (1 / 2 ^ 48) (a.toReal + ρ * b.toReal) (a + r * b) := by
    intro a b ha hb
    exact ha.add (hrest.mul hb (d := 1 / 80) (g := 1 / 2 ^ 49) (by norm_num)) (by norm_num)
  have hinner := (hlinear h₃ h₄).add
    (hsecond.mul (hlinear h₅ h₆) (d := 1 / 10000) (g := 1 / 2 ^ 49) (by norm_num))
    (d := 128 / 100) (g := 1 / 2 ^ 47) (by norm_num)
  have houter := (hlinear h₁ h₂).add
    (hsecond.mul hinner (d := 1 / 10000) (g := 1 / 2 ^ 49) (by norm_num))
    (d := 13 / 10) (g := 1 / 2 ^ 47) (by norm_num)
  obtain ⟨hm, hm'⟩ := hm
  have hprod := hthird.mul houter (d := m / 13800) (g := m / 2 ^ 38)
    ⟨by linarith, by linarith, by linarith, by linarith⟩
  exact ⟨hprod.isFinite, hprod.abs_toReal_le.trans (by linarith)⟩

/-! ### The sum -/

/-- What the sum is formed of, on a scale `m`: the leading part dominates, be it the table entry or
the rest itself. -/
structure LnInput (m : ℝ) (t₁ low₁ rHigh rLow : Binary64) : Prop where
  scale : 1 / 2 ^ 53 ≤ m ∧ m ≤ 1 / 128
  base : Approx (2 ^ 17 * m) 0 t₁.toReal t₁
  baseLow : Approx (m / 2 ^ 20) 0 low₁.toReal low₁
  restHigh : Approx (3 * m) 0 rHigh.toReal rHigh
  restLow : Approx (2 * m) 0 rLow.toReal rLow
  rest : |rHigh.toReal + rLow.toReal| ≤ 11 / 10 * m
  large : m / 2 ≤ |t₁.toReal + (rHigh.toReal + rLow.toReal)|

open Binary64 LnExp

theorem lnCoefficients_fit : (l₀.isFinite = true ∧ |l₀.toRat| ≤ 1 / 2) ∧
    ∀ l ∈ [l₁, l₂, l₃, l₄, l₅, l₆], l.isFinite = true ∧ |l.toRat| ≤ 5 / 4 := by
  decide +kernel

/-- The two parts before they are added once more. -/
theorem LnInput.exists_lnSum (h : LnInput m t₁ low₁ rHigh rLow) :
    ∃ high low : Binary64, lnSum t₁ low₁ rHigh rLow = (high + low, high - (high + low) + low) ∧
      high.isFinite = true ∧
        |high.toReal - (t₁.toReal + (rHigh.toReal + rLow.toReal))| ≤ m / 25 ∧
      low.isFinite = true ∧ |low.toReal| ≤ m / 20 := by
  obtain ⟨hm, hbase, hbaseLow, hrestHigh, hrestLow, hrest, -⟩ := h
  obtain ⟨hfirst, hcoef⟩ := lnCoefficients_fit
  have ha := approx_toReal hfirst (c := 1 / 2) (by norm_num)
  have hr : Approx (11 / 10 * m) (m / 2 ^ 50) (rHigh.toReal + rLow.toReal) (rHigh + rLow) :=
    hrestHigh.add_of hrestLow hrest ⟨by linarith, by linarith, by linarith⟩
  obtain ⟨hpfin, hpsize⟩ := approx_lnPolynomial hm hr ha
    fun a ha => approx_toReal (hcoef a ha) (c := 5 / 4) (by norm_num)
  obtain ⟨har, -, -⟩ := approx_lnPowers hm hr ha
  obtain ⟨hm, hm'⟩ := hm
  -- The table entry and the rest.
  have ht₂ := hbase.add hr (d := 2 ^ 17 * m + 2 * m) (g := m / 2 ^ 35)
    ⟨by linarith, by linarith, by linarith⟩
  have hrexact := Approx.exact hr.isFinite (hr.abs_toReal_le.trans (by linarith : _ ≤ 12 / 10 * m))
  have hlow₂ := hbase.rest_of_sizes hrexact (d := m / 2 ^ 35) (g := m / 2 ^ 50)
    ⟨by linarith, by linarith, by linarith⟩
  -- The square.
  have harHigh := (ha.mul hrestHigh (d := 3 / 2 * m) (g := m / 2 ^ 45)
    ⟨by linarith, by linarith, by linarith, by linarith⟩).mono (c := 1 / 80) (f := 1 / 2 ^ 50)
      (by linarith) (by linarith)
  have hsquare := hrestHigh.mul harHigh (d := 3 / 80 * m) (g := m / 2 ^ 45)
    ⟨by linarith, by linarith, by linarith, by linarith⟩
  have hhigh := ht₂.add hsquare (d := 2 ^ 17 * m + 3 * m) (g := m / 2 ^ 34)
    ⟨by linarith, by linarith, by linarith⟩
  have hlow₃ := hrestLow.mul (har.add harHigh (d := 1 / 57) (g := 1 / 2 ^ 48) (by norm_num))
    (d := 2 / 57 * m) (g := m / 2 ^ 40) ⟨by linarith, by linarith, by linarith, by linarith⟩
  have ht₂exact := Approx.exact ht₂.isFinite
    (ht₂.abs_toReal_le.trans (by linarith : _ ≤ 2 ^ 17 * m + 3 * m))
  have hsquareexact := Approx.exact hsquare.isFinite
    (hsquare.abs_toReal_le.trans (by linarith : _ ≤ m))
  have hlow₄ := ht₂exact.rest_of_sizes hsquareexact (d := m / 2 ^ 35) (g := m / 2 ^ 50)
    ⟨by linarith, by linarith, by linarith⟩
  have hlow := (((hbaseLow.add hlow₂ (d := m / 2 ^ 18) (g := m / 2 ^ 49)
    ⟨by linarith, by linarith, by linarith⟩).add hlow₃ (d := m / 28) (g := m / 2 ^ 39)
    ⟨by linarith, by linarith, by linarith⟩).add hlow₄ (d := m / 27) (g := m / 2 ^ 38)
    ⟨by linarith, by linarith, by linarith⟩).add (.exact hpfin hpsize) (d := m / 26)
    (g := m / 2 ^ 37) ⟨by linarith, by linarith, by linarith⟩
  refine ⟨_, _, rfl, hhigh.isFinite, ?_, hlow.isFinite, hlow.abs_toReal_le.trans (by linarith)⟩
  have herror := hhigh.error
  rw [← sub_sub] at herror
  linarith [abs_sub_abs_le_abs_sub ((t₁ + (rHigh + rLow) + rHigh * (l₀ * rHigh)).toReal -
    (t₁.toReal + (rHigh.toReal + rLow.toReal))) (rHigh.toReal * (l₀.toReal * rHigh.toReal)),
    hsquare.size, (abs_sub_comm _ _).trans_le herror]

/-- A logarithm in two parts: the second is far smaller than the first. -/
structure TwoParts (high low : Binary64) : Prop where
  isFinite : high.isFinite = true
  isFinite' : low.isFinite = true
  size : |high.toReal| ≤ 1025
  small : |low.toReal| ≤ |high.toReal| / 2 ^ 48

/-- **The two parts of the logarithm**, and what the first of them is near to. -/
theorem LnInput.lnSum_spec (h : LnInput m t₁ low₁ rHigh rLow) :
    TwoParts (lnSum t₁ low₁ rHigh rLow).1 (lnSum t₁ low₁ rHigh rLow).2 ∧
      |(lnSum t₁ low₁ rHigh rLow).1.toReal - (t₁.toReal + (rHigh.toReal + rLow.toReal))| ≤
        m / 10 := by
  obtain ⟨high, low, hsum, hhigh, hnear, hlow, hsmall⟩ := h.exists_lnSum
  rw [hsum]
  obtain ⟨-, hm'⟩ := h.scale
  have hlarge := h.large
  have hbase := h.base.size
  have hrest := h.rest
  generalize rHigh.toReal + rLow.toReal = ρ at *
  have htotal := abs_add_le t₁.toReal ρ
  have hback := abs_sub_abs_le_abs_sub (t₁.toReal + ρ) high.toReal
  have hforth := abs_sub_abs_le_abs_sub high.toReal (t₁.toReal + ρ)
  rw [abs_sub_comm] at hback
  obtain ⟨hfin, hfin', hy, hl⟩ := sum_rest_spec hhigh hlow (by linarith) (by linarith)
  have hnear' : |(high + low).toReal - (t₁.toReal + ρ)| ≤ m / 10 := by
    have hsplit : (high + low).toReal - (t₁.toReal + ρ) =
        (high + low).toReal - (high.toReal + low.toReal) + (high.toReal - (t₁.toReal + ρ)) +
          low.toReal := by ring
    rw [hsplit]
    refine (abs_add_le _ _).trans ?_
    linarith [abs_add_le ((high + low).toReal - (high.toReal + low.toReal))
      (high.toReal - (t₁.toReal + ρ))]
  have hsize := abs_sub_abs_le_abs_sub (high + low).toReal (t₁.toReal + ρ)
  exact ⟨⟨hfin, hfin', by linarith, hl⟩, hnear'⟩

end FriBound
