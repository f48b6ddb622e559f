import FriBound.Proofs.ArityOrder
import FriBound.Proofs.FieldSize

/-!
# Rounds that fold more

Each round of a schedule may fold by `2 ^ k` times as much. The folding error is then `2 ^ k` times
what it was, and so is its rounded value: nothing is lost at the lower end of the format, and the
upper end is not reached if there are terms at all.

A factor of `2 ^ k` commutes with rounding to 53 digits as long as there are 53 digits
(`roundShort_mul_two_pow`). A sum has fewer only if it is exact. The product with what does not
depend on the arities has more, since both factors are at least one, and the quotient by the field
size just does: a valid round folds by two at least, and two divided by `2 ^ 1023` is the smallest
number that has all its digits.

## Main definitions

* `Binary64.Scaled` — a number is exactly `2 ^ k` times another

## Main results

* `Elementary.arity_scaling` — the terms of an instance whose rounds fold more
-/

namespace FriBound

/-! ### A power of two before and after rounding -/

variable {a b : Nat}

theorem divNearest_mul_right {c : Nat} (hc : 0 < c) :
    divNearest (a * c) (b * c) = divNearest a b := by
  have hleft : 2 * (a % b * c) < b * c ↔ 2 * (a % b) < b := by
    rw [← Nat.mul_assoc, Nat.mul_lt_mul_right hc]
  have hright : b * c < 2 * (a % b * c) ↔ b < 2 * (a % b) := by
    rw [← Nat.mul_assoc, Nat.mul_lt_mul_right hc]
  rw [divNearest, divNearest, Nat.mul_mod_mul_right, Nat.mul_div_mul_right _ _ hc]
  simp only [hleft, hright]

theorem log2_mul_two_pow_div (hb : 0 < b) (h : b ≤ a) (k : Nat) :
    (a * 2 ^ k / b).log2 = (a / b).log2 + k := by
  have hquot : a / b ≠ 0 := by
    have := Nat.div_pos h hb
    omega
  have hlow : 2 ^ (a / b).log2 * b ≤ a := (Nat.le_div_iff_mul_le hb).mp (Nat.log2_self_le hquot)
  have hhigh : a < 2 ^ ((a / b).log2 + 1) * b := (Nat.div_lt_iff_lt_mul hb).mp Nat.lt_log2_self
  have hpos := Nat.two_pow_pos k
  generalize (a / b).log2 = l at hlow hhigh
  have hlow' : 2 ^ (l + k) ≤ a * 2 ^ k / b := by
    rw [Nat.le_div_iff_mul_le hb, Nat.pow_add, Nat.mul_right_comm]
    exact Nat.mul_le_mul_right _ hlow
  have hhigh' : a * 2 ^ k / b < 2 ^ (l + k + 1) := by
    rw [Nat.div_lt_iff_lt_mul hb, Nat.add_right_comm, Nat.pow_add _ _ k, Nat.mul_right_comm]
    exact Nat.mul_lt_mul_of_pos_right hhigh hpos
  have hne : a * 2 ^ k / b ≠ 0 := by
    have := Nat.two_pow_pos (l + k)
    omega
  exact (Nat.log2_eq_iff hne).mpr ⟨hlow', hhigh'⟩

/-- **A power of two commutes with rounding.** The quotient has 53 digits. -/
theorem roundShort_mul_two_pow (hb : 0 < b) (h : 2 ^ 52 * b ≤ a) (k : Nat) :
    roundShort (a * 2 ^ k) b = roundShort a b * 2 ^ k := by
  have hquot : 2 ^ 52 ≤ a / b := (Nat.le_div_iff_mul_le hb).mpr h
  have hlog : 52 ≤ (a / b).log2 := (Nat.le_log2 (by omega)).mpr hquot
  have hspare : Magnitude.spare (a * 2 ^ k / b) = Magnitude.spare (a / b) + k := by
    rw [Magnitude.spare, Magnitude.spare, log2_mul_two_pow_div hb (by omega)]
    omega
  rw [roundShort, roundShort, hspare, Nat.pow_add, ← Nat.mul_assoc, ← Nat.mul_assoc,
    divNearest_mul_right (Nat.two_pow_pos k)]

/-- A whole number of units with fewer digits is left as it is. -/
theorem roundShort_one_mul_two_pow (a k : Nat) :
    roundShort (a * 2 ^ k) 1 = roundShort a 1 * 2 ^ k := by
  rcases Nat.lt_or_ge a (2 ^ 52) with hlt | hge
  · have hexact := roundShort_of_short (short_of_le (u := a) (by omega)) Nat.one_pos
    have hexact' := roundShort_of_short (u := a * 2 ^ k) ⟨a, k, by omega, rfl⟩ Nat.one_pos
    rw [Nat.mul_one] at hexact hexact'
    rw [hexact, hexact']
  · exact roundShort_mul_two_pow Nat.one_pos (by omega) k

namespace Binary64

variable {k : Nat} {x x' y y' : Binary64}

theorem scale_zero (s : Bool) (k : Nat) : (zero s).scale k = zero s := by
  show Binary64.round s (Magnitude.zero.units * 2 ^ k) 1 = zero s
  rw [units_zero, Nat.zero_mul]
  exact round_zero ..

/-- The finite number `x'` is exactly `2 ^ k` times `x`, which is not negative. -/
structure Scaled (k : Nat) (x x' : Binary64) : Prop where
  isFinite' : x'.isFinite = true
  exists_place : ∃ a : Nat, x.place = some (a : Int) ∧ x'.place = some ((a * 2 ^ k : Nat) : Int)

namespace Scaled

theorem isFinite (h : Scaled k x x') : x.isFinite = true := by
  obtain ⟨hfin, a, ha, ha'⟩ := h
  have hsmall := natAbs_place_lt hfin ha'
  refine isFinite_iff_place.mpr ⟨a, ha, ?_⟩
  rw [Int.natAbs_natCast] at hsmall ⊢
  exact Nat.lt_of_le_of_lt (Nat.le_mul_of_pos_right a (Nat.two_pow_pos k)) hsmall

/-- Two results of rounding. -/
theorem of_round {c b : Nat} (hfin : y'.isFinite = true) (hy : y.place = some (roundPlace c b))
    (hy' : y'.place = some (roundPlace (c * 2 ^ k : Nat) b))
    (hround : roundShort (c * 2 ^ k) b = roundShort c b * 2 ^ k) : Scaled k y y' := by
  have hsmall := natAbs_place_lt hfin hy'
  rw [roundPlace_natCast, hround] at hy'
  rw [roundPlace_natCast, hround, Int.natAbs_natCast] at hsmall
  rw [roundPlace_natCast] at hy
  -- The larger result is in range, so neither is cut off at its end.
  have hle := Nat.le_mul_of_pos_right (roundShort c b) (Nat.two_pow_pos k)
  rw [Nat.min_eq_left (by omega)] at hy hy'
  exact ⟨hfin, _, hy, hy'⟩

theorem add (hx : Scaled k x x') (hy : Scaled k y y') (hfin : (x' + y').isFinite = true) :
    Scaled k (x + y) (x' + y') := by
  obtain ⟨a, ha, ha'⟩ := hx.exists_place
  obtain ⟨b, hb, hb'⟩ := hy.exists_place
  have hplace := place_add hx.isFinite hy.isFinite ha hb
  have hplace' := place_add hx.isFinite' hy.isFinite' ha' hb'
  rw [← Int.natCast_add] at hplace hplace'
  rw [← Nat.add_mul] at hplace'
  exact of_round hfin hplace hplace' (roundShort_one_mul_two_pow _ _)

/-- The other factor does not change, and both are at least one. -/
theorem mul_left (hx : Scaled k x x') (hy : ofInt 1 ≤ y) (hone : ofInt 1 ≤ x)
    (hfin : (y * x').isFinite = true) : Scaled k (y * x) (y * x') := by
  obtain ⟨a, ha, ha'⟩ := hx.exists_place
  obtain ⟨hyfin, -⟩ := isFinite_mul hfin
  obtain ⟨c, hc, hle⟩ := exists_place_of_le hy place_one
  obtain ⟨c, rfl⟩ := Int.eq_ofNat_of_zero_le (Int.le_trans (Int.natCast_nonneg _) hle)
  have hle' := (le_iff_of_place place_one ha).mp hone
  have hplace := place_mul hyfin hx.isFinite hc ha
  have hplace' := place_mul hyfin hx.isFinite' hc ha'
  rw [← Int.natCast_mul] at hplace hplace'
  rw [← Nat.mul_assoc] at hplace'
  refine of_round hfin hplace hplace' (roundShort_mul_two_pow unitsPerOne_pos ?_ k)
  have hunits : 2 ^ 52 ≤ unitsPerOne := by
    rw [unitsPerOne_eq]
    exact Nat.pow_le_pow_right Nat.two_pos (by decide)
  calc 2 ^ 52 * unitsPerOne ≤ unitsPerOne * unitsPerOne := Nat.mul_le_mul_right _ hunits
    _ ≤ c * a := Nat.mul_le_mul (Int.ofNat_le.mp hle) (Int.ofNat_le.mp hle')

/-- The divisor is a power of two, and what is divided is at least two. -/
theorem div_twoPow (hx : Scaled k x x') (htwo : twoPow 1 ≤ x) {n : Nat} (hn : n ≤ 1023)
    (hfin : (x' / twoPow n).isFinite = true) : Scaled k (x / twoPow n) (x' / twoPow n) := by
  obtain ⟨a, ha, ha'⟩ := hx.exists_place
  have hle := (le_iff_of_place (place_twoPow (by decide) (by decide)) ha).mp htwo
  have hdivisor := place_twoPow (n := n) (by omega) (by omega)
  have hyfin := isFinite_twoPow (n := n) (by omega) (by omega)
  have hplace := place_div hx.isFinite hyfin ha hdivisor (Nat.two_pow_pos _)
  have hplace' := place_div hx.isFinite' hyfin ha' hdivisor (Nat.two_pow_pos _)
  rw [← Int.natCast_mul] at hplace hplace'
  rw [Nat.mul_right_comm] at hplace'
  refine of_round hfin hplace hplace' (roundShort_mul_two_pow (Nat.two_pow_pos _) ?_ k)
  calc 2 ^ 52 * 2 ^ ((n : Int) + places).toNat = 2 ^ (52 + ((n : Int) + places).toNat) :=
        (Nat.pow_add ..).symm
    _ ≤ 2 ^ ((1 + places : Int).toNat + places) :=
        Nat.pow_le_pow_right Nat.two_pos (by unfold places; omega)
    _ = 2 ^ (1 + places : Int).toNat * unitsPerOne := two_pow_add_places _
    _ ≤ a * unitsPerOne := Nat.mul_le_mul_right _ (Int.ofNat_le.mp hle)

/-! ### What it says about the numbers -/

theorem toReal_eq (h : Scaled k x x') : x'.toReal = 2 ^ k * x.toReal := by
  obtain ⟨a, ha, ha'⟩ := h.exists_place
  rw [toReal_of_place ha h.isFinite, toReal_of_place ha' h.isFinite']
  push_cast
  ring

/-- No digit is rounded away when the number is scaled. -/
theorem eq_scale (h : Scaled k x x') (hpos : (zero false).lt x = true) : x' = x.scale k := by
  obtain ⟨a, ha, ha'⟩ := h.exists_place
  have hscale : (x.scale k).place = some ((a * 2 ^ k : Nat) : Int) :=
    place_scale_of_short h.isFinite ha (short_place ha') (natAbs_place_le ha') (by simp)
  obtain ⟨z, d, hz, hd, hlt⟩ := lt_iff_place.mp hpos
  obtain rfl := place_inj (place_zero false) hz
  obtain rfl := place_inj ha hd
  refine eq_of_place ha' hscale ?_
  have := Nat.mul_pos (Int.natCast_pos.mp hlt) (Nat.two_pow_pos k)
  omega

end Scaled

end Binary64

namespace Elementary

open Binary64

variable {E : Elementary} {p : Params Binary64} {t t' : Terms Binary64} {k : Nat}

/-! ### The sum of the arities -/

theorem scaled_size (hexp : E.ExpLaws) {n : Nat} (hfin : (E.size (n + k : Nat)).isFinite = true) :
    Scaled k (E.size n) (E.size (n + k : Nat)) := by
  have hle := hexp.le_of_isFinite hfin
  refine ⟨hfin, 2 ^ (n + places), ?_, ?_⟩
  · rw [size, hexp.eq_twoPow, place_twoPow (by omega) (by omega)]
    exact congrArg (fun e : Nat => some ((2 ^ e : Nat) : Int)) (by omega)
  · rw [size, hexp.eq_twoPow, place_twoPow (by omega) (by omega), ← Nat.pow_add]
    exact congrArg (fun e : Nat => some ((2 ^ e : Nat) : Int)) (by omega)

/-- A running sum is scaled if its start is and every exponent is `k` more. -/
theorem scaled_foldl_add (hexp : E.ExpLaws) {as as' : List UInt64} {x x' : Binary64}
    (has : List.Forall₂ (fun a a' => a'.toNat = a.toNat + k) as as') (hx : Scaled k x x')
    (hfin : ((as'.map fun a => E.size a.toNat).foldl (· + ·) x').isFinite = true) :
    Scaled k ((as.map fun a => E.size a.toNat).foldl (· + ·) x)
      ((as'.map fun a => E.size a.toNat).foldl (· + ·) x') := by
  induction has generalizing x x' with
  | nil => exact hx
  | @cons a a' as as' haa _ ih =>
    have hstep : Scalar.isFinite (x' + E.size a'.toNat) = true :=
      (Scalar.isFinite_foldl_add hfin).1
    -- A summand is in range since the sum is, and only there is its power of two exact.
    have hsize : Scaled k (E.size a.toNat) (E.size a'.toNat) := by
      rw [haa]
      exact scaled_size hexp (haa ▸ (isFinite_add hstep).2)
    exact ih (hx.add hsize hstep) hfin

theorem scaled_aritySum (hexp : E.ExpLaws) {as : List UInt64}
    (has : List.Forall₂ (fun a a' => a'.toNat = a.toNat + k) p.arityBits as)
    (hfin : (E.aritySum { p with arityBits := as }).isFinite = true) :
    Scaled k (E.aritySum p) (E.aritySum { p with arityBits := as }) := by
  have hstart : Scaled k (-ofInt 0) (-ofInt 0) := by
    rw [ofInt_zero]
    exact ⟨rfl, 0, place_zero true, by rw [Nat.zero_mul]; exact place_zero true⟩
  exact scaled_foldl_add hexp has hstart hfin

/-! ### The folding error -/

/-- Without rounds the folding error is a zero. -/
theorem exists_folding_eq_zero (hnil : p.arityBits = [])
    (hfin : (E.values p).folding.isFinite = true) : ∃ s, (E.values p).folding = zero s := by
  have hsum : E.aritySum p = zero true := by
    rw [aritySum_formula, hnil, List.map_nil, List.foldl_nil, ofInt_zero]
    rfl
  rw [folding_eq_arityFactor, hsum] at hfin ⊢
  have hprod := (isFinite_div hfin).1
  have hcomm := Binary64.mul_comm (isFinite_mul hprod).1 (isFinite_mul hprod).2
  rw [hcomm] at hprod hfin ⊢
  obtain ⟨s, hs⟩ := Binary64.zero_mul hprod
  rw [hs] at hfin ⊢
  exact Binary64.zero_div hfin

theorem Evaluable.scaled_folding (h : E.Evaluable p) (hexp : E.ExpLaws) (hne : p.arityBits ≠ [])
    {as : List UInt64} (has : List.Forall₂ (fun a a' => a'.toNat = a.toNat + k) p.arityBits as)
    (hguarded : ∀ g ∈ E.guarded { p with arityBits := as }, g.2.isFinite = true) :
    Scaled k (E.values p).folding (E.values { p with arityBits := as }).folding := by
  obtain ⟨-, -, -, hsum, -, hfolding, -⟩ := guarded_iff.mp hguarded
  obtain ⟨n, hn, hfield⟩ := h.size_field hexp
  have hle := hexp.le_of_isFinite h.inRange.field
  change (E.arityFactor p * E.aritySum { p with arityBits := as }
    / E.size p.fieldSizeBits.toInt).isFinite = true at hfolding
  rw [folding_eq_arityFactor]
  show Scaled k _ (E.arityFactor p * E.aritySum { p with arityBits := as }
    / E.size p.fieldSizeBits.toInt)
  rw [hfield] at hfolding ⊢
  have hone : ofInt 1 ≤ twoPow 1 := twoPow_zero ▸ twoPow_mono (by decide)
  have hprod := (scaled_aritySum hexp has hsum).mul_left (h.one_le_arityFactor hexp)
    (Binary64.le_trans hone (h.two_le_aritySum hexp hne)) (isFinite_div hfolding).1
  exact hprod.div_twoPow (h.two_le_foldingNumerator hexp hne) (by omega) hfolding

/-- **Rounds that fold more.** If the terms of a valid instance exist, and also when each round
folds by `2 ^ k` times as much, then the folding error is exactly `2 ^ k` times what it was. The
rest is the same. -/
theorem arity_scaling (hexp : E.ExpLaws) (hvalid : p.validate = .ok ()) {as : List UInt64}
    (has : List.Forall₂ (fun a a' => a'.toNat = a.toNat + k) p.arityBits as)
    (ht : E.terms p = .ok t) (ht' : E.terms { p with arityBits := as } = .ok t') :
    t.folding.isFinite = true ∧ t'.folding.isFinite = true ∧
      t'.folding.toReal = 2 ^ k * t.folding.toReal ∧ t'.folding = t.folding.scale k ∧
      t'.rate = t.rate ∧ t'.alpha = t.alpha ∧ t'.proximity = t.proximity ∧ t'.query = t.query := by
  obtain ⟨-, -, hguarded, rfl⟩ := terms_eq_ok_iff_guarded.mp ht
  obtain ⟨-, -, hguarded', rfl⟩ := terms_eq_ok_iff_guarded.mp ht'
  have h : E.Evaluable p := ⟨hvalid, hguarded⟩
  have hrest : (E.values { p with arityBits := as }).rate = (E.values p).rate ∧
      (E.values { p with arityBits := as }).alpha = (E.values p).alpha ∧
      (E.values { p with arityBits := as }).proximity = (E.values p).proximity ∧
      (E.values { p with arityBits := as }).query = (E.values p).query := ⟨rfl, rfl, rfl, rfl⟩
  by_cases hnil : p.arityBits = []
  · rw [hnil] at has
    obtain rfl := List.forall₂_nil_left_iff.mp has
    have hsame : { p with arityBits := [] } = p := by rw [← hnil]
    obtain ⟨s, hs⟩ := exists_folding_eq_zero hnil h.inRange.folding
    refine ⟨h.inRange.folding, ?_, ?_, ?_, hrest⟩ <;> rw [hsame]
    · exact h.inRange.folding
    · rw [hs, toReal_zero, MulZeroClass.mul_zero]
    · rw [hs, scale_zero]
  · have hscaled := h.scaled_folding hexp hnil has hguarded'
    have hpos : (zero false).lt (E.values p).folding = true := by
      obtain ⟨hfield, hfield'⟩ := h.field_spec hexp
      have hfolding := h.inRange.folding
      rw [folding_eq_arityFactor] at hfolding ⊢
      exact div_pos (isFinite_div hfolding).1
        (Binary64.le_trans (twoPow_mono (by decide)) (h.two_le_foldingNumerator hexp hnil))
        hfield hfield'
    exact ⟨hscaled.isFinite, hscaled.isFinite', hscaled.toReal_eq, hscaled.eq_scale hpos, hrest⟩

/-- Two rounds that fold by 16 and by 32 instead of by two and by four. -/
theorem arity_scaling_quarterCode :
    ∃ t t', whole.terms quarterCode = .ok t ∧
      whole.terms { quarterCode with arityBits := [4, 5] } = .ok t' ∧
      t'.folding.toReal = 2 ^ 3 * t.folding.toReal ∧ t'.folding = t.folding.scale 3 := by
  have hterms' : whole.terms { quarterCode with arityBits := [4, 5] } = .ok _ :=
    terms_eq_ok_iff_guarded.mpr ⟨isFinite_one, quarterCode_m_ne_zero, by decide +kernel, rfl⟩
  have harities : List.Forall₂ (fun a a' : UInt64 => a'.toNat = a.toNat + 3)
      quarterCode.arityBits [4, 5] :=
    .cons (by decide) (.cons (by decide) .nil)
  obtain ⟨-, -, hreal, hscale, -⟩ :=
    arity_scaling expLaws_whole validate_quarterCode harities terms_quarterCode hterms'
  exact ⟨_, _, terms_quarterCode, hterms', hreal, hscale⟩

end Elementary

end FriBound
