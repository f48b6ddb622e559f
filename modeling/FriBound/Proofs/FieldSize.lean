import FriBound.Proofs.Monotone

/-!
# Larger fields help

The field size is a divisor of the proximity error and of the folding error, and a power of two. So
a larger field makes both of them smaller, and strictly so. Rounding has two chances to spoil this:
two quotients could be rounded to the same number, near the lower end of the format in particular,
and the divisor of the proximity error could leave the range.

Neither happens on valid parameters. The divisor is at most one before the field size enters it, and
the product with a power of two is exact (`Binary64.place_mul_twoPow`). The errors are not small
enough for the lower end to matter: the proximity error divides at least `2 ^ (-7)` by at most
`2 ^ 1022`, and the folding error divides two or more, if there is a folding round at all.

## Main definitions

* `Elementary.arityFactor` — what the folding error is apart from the arities and the field

## Main results

* `Elementary.larger_field` — the terms with a larger field
-/

namespace FriBound

namespace Binary64

variable {x y : Binary64}

/-- The product of a number between minus one and one with a power of two in range is exact. -/
theorem place_mul_twoPow {a : Int} {n : Nat} (hx : x.isFinite = true) (ha : x.place = some a)
    (hone : a.natAbs ≤ unitsPerOne) (hn : n ≤ 1023) :
    (x * twoPow n).place = some (a * (2 ^ n : Nat)) := by
  have hpower : ((2 ^ ((n : Int) + places).toNat : Nat) : Int)
      = (2 ^ n : Nat) * (unitsPerOne : Int) := by
    rw [← Int.natCast_mul, ← two_pow_add_places]
    exact congrArg (fun e : Nat => ((2 ^ e : Nat) : Int)) (by omega)
  have hplace := place_mul hx (isFinite_twoPow (by omega) (by omega)) ha
    (place_twoPow (n := n) (by omega) (by omega))
  rw [hpower, ← Int.mul_assoc] at hplace
  rw [hplace, roundPlace_of_short ?_ ?_ unitsPerOne_pos]
  · obtain ⟨q, s, hq, hqs⟩ := short_place ha
    rw [Int.natAbs_mul, Int.natAbs_natCast, hqs, Nat.mul_assoc, ← Nat.pow_add]
    exact ⟨q, s + n, hq, rfl⟩
  · rw [Int.natAbs_mul, Int.natAbs_natCast]
    calc a.natAbs * 2 ^ n ≤ unitsPerOne * 2 ^ n := Nat.mul_le_mul_right _ hone
      _ = 2 ^ (n + places) := by rw [two_pow_add_places, Nat.mul_comm]
      _ ≤ unitLimit := Nat.le_of_lt (two_pow_lt_unitLimit (by omega))

/-- A divisor of at most one does not lower a number. -/
theorem le_div_of_le_one (hx0 : zero false ≤ x) (hx : x.isFinite = true) (hy : y.isFinite = true)
    (hpos : (zero false).lt y = true) (hone : y ≤ ofInt 1) : x ≤ x / y := by
  obtain ⟨a, ha, ha0⟩ := zero_le_iff_place.mp hx0
  obtain ⟨m, rfl, hm⟩ := exists_fin_of_pos hy hpos
  have hunits := (le_iff_of_place (place_fin ..) place_one).mp hone
  have hm' := Nat.pos_of_ne_zero hm
  refine le_iff_place.mpr ⟨_, _, ha, place_div hx hy ha rfl hm', ?_⟩
  exact le_roundPlace (short_place ha) (natAbs_place_le ha) hm'
    (Int.mul_le_mul_of_nonneg_left hunits ha0)

/-- **A larger power of two in the divisor.** What is divided is not tiny, and the rest of the
divisor is at most one. -/
theorem div_mul_twoPow_lt {c : Binary64} {n k : Nat} (hx : x.isFinite = true)
    (hlow : twoPow (-7) ≤ x) (hc : InUnit c) (hpos : (zero false).lt c = true) (hnk : n < k)
    (hk : k ≤ 1023) (hfin : (x / (c * twoPow n)).isFinite = true) :
    zero false ≤ x / (c * twoPow k) ∧ (x / (c * twoPow k)).lt (x / (c * twoPow n)) = true := by
  obtain ⟨a, ha, hla⟩ := exists_place_of_le hlow (place_twoPow (by decide) (by decide))
  obtain ⟨m, rfl, hm⟩ := exists_fin_of_pos hc.isFinite hpos
  have hunits : m.units ≤ unitsPerOne :=
    Int.ofNat_le.mp ((le_iff_of_place (place_fin ..) place_one).mp hc.2)
  have hplace : ∀ e : Nat, e ≤ 1023 →
      (fin false m * twoPow e).place = some ((m.units * 2 ^ e : Nat) : Int) := by
    intro e he
    rw [Int.natCast_mul]
    exact place_mul_twoPow hc.isFinite (place_fin false m) hunits he
  have hfinite : ∀ e : Nat, e ≤ 1023 → (fin false m * twoPow e).isFinite = true := by
    intro e he
    refine isFinite_iff_place.mpr ⟨_, hplace e he, ?_⟩
    calc m.units * 2 ^ e ≤ unitsPerOne * 2 ^ e := Nat.mul_le_mul_right _ hunits
      _ = 2 ^ (e + places) := by rw [two_pow_add_places, Nat.mul_comm]
      _ < unitLimit := two_pow_lt_unitLimit (by omega)
  have hdouble : 2 * (m.units * 2 ^ n) ≤ m.units * 2 ^ k := by
    calc 2 * (m.units * 2 ^ n) = m.units * 2 ^ (n + 1) := by
          rw [Nat.pow_succ, Nat.mul_comm, Nat.mul_assoc]
      _ ≤ m.units * 2 ^ k := Nat.mul_le_mul_left _ (Nat.pow_le_pow_right Nat.two_pos hnk)
  obtain ⟨e, he, hne⟩ : ∃ e, (-7 + places : Int).toNat = e ∧ n + 2 ≤ e :=
    ⟨_, rfl, by unfold places; omega⟩
  rw [he] at hla
  have hsmall : 4 * (m.units * 2 ^ n) ≤ 2 ^ e * unitsPerOne := by
    calc 4 * (m.units * 2 ^ n) = 2 ^ (n + 2) * m.units := by
          rw [Nat.pow_succ, Nat.pow_succ]
          ring
      _ ≤ 2 ^ e * unitsPerOne := Nat.mul_le_mul (Nat.pow_le_pow_right Nat.two_pos hne) hunits
  have hpositive : ∀ e : Nat, 0 < m.units * 2 ^ e :=
    fun e => Nat.mul_pos (Nat.pos_of_ne_zero hm) (Nat.two_pow_pos e)
  refine ⟨zero_le_div (le_trans (twoPow_nonneg _) hlow) hx (lt_iff_place.mpr ⟨_, _, place_zero _,
    hplace k hk, Int.natCast_pos.mpr (hpositive k)⟩), ?_⟩
  refine div_lt_div hx ha (hfinite n (by omega)) (hfinite k hk) (hplace n (by omega)) (hplace k hk)
    (hpositive n) hdouble ?_ hfin
  calc (4 * (m.units * 2 ^ n : Nat) : Int) ≤ (2 ^ e : Nat) * unitsPerOne := by
        exact_mod_cast hsmall
    _ ≤ a * unitsPerOne := Int.mul_le_mul_of_nonneg_right hla (Int.natCast_nonneg _)

end Binary64

namespace Elementary

open Binary64

variable {E : Elementary} {p : Params Binary64} {t : Terms Binary64} {f' : Int32}

/-- What the sum of the arities is multiplied by in the folding error. -/
def arityFactor (E : Elementary) (p : Params Binary64) : Binary64 :=
  (ofInt 2 * p.m + ofInt 1) * (E.size p.codewordSizeBits.toInt + ofInt 1) / (E.values p).rate.sqrt

theorem folding_eq_arityFactor : (E.values p).folding =
    E.arityFactor p * E.aritySum p / E.size p.fieldSizeBits.toInt :=
  folding_formula

namespace Evaluable

/-! ### The folding error without the field -/

theorem one_le_arityFactor (h : E.Evaluable p) (hexp : E.ExpLaws) :
    ofInt 1 ≤ E.arityFactor p := by
  obtain ⟨hrootfin, hroot⟩ := h.root_spec hexp
  obtain ⟨hrate, hratepos, hratele⟩ := h.rate_spec hexp
  have hfolding := h.inRange.folding
  rw [folding_formula] at hfolding
  have hhead := (isFinite_div (isFinite_mul (isFinite_div hfolding).1).1).1
  obtain ⟨hlist, hsize⟩ := isFinite_mul hhead
  have hlist1 : ofInt 1 ≤ ofInt 2 * p.m + ofInt 1 :=
    (le_add_of_nonneg isFinite_one h.twice_pos.1 (le_of_lt h.twice_pos.2)).2
  have hsize1 : ofInt 1 ≤ E.size p.codewordSizeBits.toInt + ofInt 1 :=
    (le_add_of_nonneg isFinite_one h.inRange.size (hexp.nonneg _)).2
  have hhead1 := le_trans hsize1
    (le_mul_of_one_le hsize (le_trans (le_of_lt one_pos) hsize1) hlist hlist1)
  have hroot1 : (E.values p).rate.sqrt ≤ ofInt 1 := by
    have hhalf : ofHalves 1 ≤ ofInt 1 := by decide +kernel
    exact sqrt_le_one hrate hratepos (le_trans hratele hhalf)
  exact le_trans hhead1
    (le_div_of_le_one (le_trans (le_of_lt one_pos) hhead1) hhead hrootfin hroot hroot1)

/-- A valid round folds by two at least. -/
theorem two_le_aritySum (h : E.Evaluable p) (hexp : E.ExpLaws) (hne : p.arityBits ≠ []) :
    twoPow 1 ≤ E.aritySum p := by
  obtain ⟨-, -, -, -, harity, -⟩ := Params.validate_eq_ok_iff.mp h.valid
  obtain ⟨a, ha⟩ := List.exists_mem_of_ne_nil _ hne
  have hmem : E.size a.toNat ∈ p.arityBits.map fun a => E.size a.toNat :=
    List.mem_map.mpr ⟨a, ha, rfl⟩
  have hone : 1 ≤ (a.toNat : Int) := by
    have hzero : a.toNat ≠ 0 := fun h0 => harity a ha (UInt64.toNat_inj.mp h0)
    omega
  have hfin := h.inRange.aritySum
  rw [aritySum_formula] at hfin ⊢
  refine le_trans ?_ (le_foldl_add_of_mem zero_le_neg_zero (sizes_nonneg hexp.nonneg _) hfin hmem)
  rw [size, hexp.eq_twoPow]
  exact twoPow_mono hone

/-- What the field size divides in the folding error. -/
theorem two_le_foldingNumerator (h : E.Evaluable p) (hexp : E.ExpLaws) (hne : p.arityBits ≠ []) :
    twoPow 1 ≤ E.arityFactor p * E.aritySum p := by
  have hfolding := h.inRange.folding
  rw [folding_eq_arityFactor] at hfolding
  obtain ⟨hfactor, hsum⟩ := isFinite_mul (isFinite_div hfolding).1
  exact le_trans (h.two_le_aritySum hexp hne)
    (le_mul_of_one_le hsum (h.aritySum_nonneg hexp) hfactor (h.one_le_arityFactor hexp))

/-! ### Two fields -/

/-- The size of a valid field. -/
theorem size_field (h : E.Evaluable p) (hexp : E.ExpLaws) :
    ∃ n : Nat, p.fieldSizeBits.toInt = n ∧ E.size p.fieldSizeBits.toInt = twoPow n := by
  obtain ⟨-, -, -, -, -, -, hpos, -⟩ := Params.validate_eq_ok_iff.mp h.valid
  obtain ⟨n, hn⟩ := Int.eq_ofNat_of_zero_le (Int.le_of_lt hpos)
  exact ⟨n, hn, by rw [size, hexp.eq_twoPow, hn]⟩

/-- Twice the power of the rate does not vanish, or the proximity error would be infinite. -/
theorem double_pos (h : E.Evaluable p) (hexp : E.ExpLaws) (hpow : E.PowLaws) :
    (zero false).lt (ofInt 2 * E.pow (E.values p).rate (ofHalves 3)) = true := by
  have hdouble := h.double_spec hexp hpow
  obtain ⟨hden, hden'⟩ := h.denominator_spec hexp hpow
  have hfin := isFinite_of_le_of_le (le_of_lt hden) hden' rfl
    (isFinite_twoPow (by decide) (by decide))
  rw [denominator_formula] at hden hfin
  refine pos_of_finite hdouble.isFinite (not_lt_of_le hdouble.1) ?_
  rintro ⟨s, hs⟩
  rw [hs] at hden hfin
  obtain ⟨t, ht⟩ := zero_mul hfin
  rw [ht, lt_zero_zero] at hden
  exact Bool.false_ne_true hden

section

variable (h : E.Evaluable p) (hexp : E.ExpLaws) (hf : p.fieldSizeBits.toInt < f'.toInt)
  (hf' : f'.toInt ≤ 1023)

include h hexp hf hf'

theorem proximity_lt (hpow : E.PowLaws) :
    zero false ≤ (E.values { p with fieldSizeBits := f' }).proximity ∧
      (E.values { p with fieldSizeBits := f' }).proximity.lt (E.values p).proximity = true := by
  obtain ⟨n, hn, hsize⟩ := h.size_field hexp
  obtain ⟨k, hk⟩ := Int.eq_ofNat_of_zero_le (a := f'.toInt) (by omega)
  have hsize' : E.size f'.toInt = twoPow k := by rw [size, hexp.eq_twoPow, hk]
  have hdouble := h.double_spec hexp hpow
  have hpos := h.double_pos hexp hpow
  have hproximity := h.inRange.proximity
  have hlow := h.twoPow_le_numerator hexp
  rw [proximity_formula, denominator_formula, hsize] at hproximity
  have hnum := (isFinite_div hproximity).1
  rw [proximity_formula, proximity_formula, denominator_formula, denominator_formula, hsize]
  show zero false ≤ _ / (ofInt 2 * E.pow (E.values p).rate (ofHalves 3) * E.size f'.toInt) ∧
    (_ / (ofInt 2 * E.pow (E.values p).rate (ofHalves 3) * E.size f'.toInt)).lt _ = true
  rw [hsize']
  exact div_mul_twoPow_lt hnum hlow hdouble hpos (by omega) (by omega) hproximity

theorem folding_lt (hne : p.arityBits ≠ []) :
    zero false ≤ (E.values { p with fieldSizeBits := f' }).folding ∧
      (E.values { p with fieldSizeBits := f' }).folding.lt (E.values p).folding = true := by
  obtain ⟨n, hn, hsize⟩ := h.size_field hexp
  obtain ⟨k, hk⟩ := Int.eq_ofNat_of_zero_le (a := f'.toInt) (by omega)
  have hsize' : E.size f'.toInt = ofInt 1 * twoPow k := by
    rw [Binary64.one_mul (isFinite_twoPow (by omega) (by omega)), size, hexp.eq_twoPow, hk]
  have hlow : twoPow (-7) ≤ E.arityFactor p * E.aritySum p :=
    le_trans (twoPow_mono (by decide)) (h.two_le_foldingNumerator hexp hne)
  have hfolding := h.inRange.folding
  rw [folding_eq_arityFactor, hsize, ← Binary64.one_mul (isFinite_twoPow (by omega) (by omega))]
    at hfolding
  have hprod := (isFinite_div hfolding).1
  rw [folding_eq_arityFactor, folding_eq_arityFactor, hsize,
    ← Binary64.one_mul (isFinite_twoPow (n := n) (by omega) (by omega))]
  show zero false ≤ _ * E.aritySum p / E.size f'.toInt ∧
    (_ * E.aritySum p / E.size f'.toInt).lt _ = true
  rw [hsize']
  exact div_mul_twoPow_lt hprod hlow .one one_pos (by omega) (by omega) hfolding

end

end Evaluable

/-- **Larger fields help.** For valid parameters with a folding round and a larger field within the
range of the format, the terms exist again; the proximity and the folding error are strictly
smaller, the rest is the same, and the sum of the terms is not larger. -/
theorem larger_field (hexp : E.ExpLaws) (hpow : E.PowLaws) (hvalid : p.validate = .ok ())
    (hne : p.arityBits ≠ []) (ht : E.terms p = .ok t) (hf : p.fieldSizeBits < f')
    (hf' : f'.toInt ≤ 1023) :
    ∃ t', E.terms { p with fieldSizeBits := f' } = .ok t' ∧
      t'.proximity.lt t.proximity = true ∧ t'.folding.lt t.folding = true ∧
      t'.rate = t.rate ∧ t'.alpha = t.alpha ∧ t'.query = t.query ∧
      t'.proximity + t'.folding + t'.query ≤ t.proximity + t.folding + t.query := by
  obtain ⟨hfin, hzero, hguarded, rfl⟩ := terms_eq_ok_iff_guarded.mp ht
  have h : E.Evaluable p := ⟨hvalid, hguarded⟩
  have hlt := Int32.lt_iff_toInt_lt.mp hf
  obtain ⟨hproximity0, hproximity⟩ := h.proximity_lt hexp hlt hf' hpow
  obtain ⟨hfolding0, hfolding⟩ := h.folding_lt hexp hlt hf' hne
  have hproximity' : Dominated _ _ := ⟨hproximity0, le_of_lt hproximity, h.inRange.proximity⟩
  have hfolding' : Dominated _ _ := ⟨hfolding0, le_of_lt hfolding, h.inRange.folding⟩
  obtain ⟨hsize, hsquare, -, hsum, -, -, hquery⟩ := guarded_iff.mp hguarded
  obtain ⟨n, hn, -⟩ := h.size_field hexp
  have hfield : (E.size f'.toInt).isFinite = true := by
    rw [size, hexp.eq_twoPow]
    exact isFinite_twoPow (by omega) hf'
  refine ⟨_, terms_eq_ok_iff_guarded.mpr ⟨hfin, hzero, guarded_iff.mpr ?_, rfl⟩, hproximity,
    hfolding, rfl, rfl, rfl, ?_⟩
  · exact ⟨hsize, hsquare, hfield, hsum, hproximity'.isFinite, hfolding'.isFinite, hquery⟩
  · have hpart := add_le_add hproximity'.le hfolding'.le ⟨hproximity'.isFinite, hfolding'.isFinite⟩
      ⟨hproximity'.isFinite', hfolding'.isFinite'⟩
    have hpart0 := le_trans hproximity0
      (le_add_of_nonneg hproximity'.isFinite hfolding'.isFinite hfolding0).1
    exact add_le_add_right hpart hpart0 hquery

theorem larger_field_quarterCode :
    ∃ t t', whole.terms quarterCode = .ok t ∧
      whole.terms { quarterCode with fieldSizeBits := 1023 } = .ok t' ∧
      t'.proximity.lt t.proximity = true ∧ t'.folding.lt t.folding = true := by
  obtain ⟨t', ht', hproximity, hfolding, -⟩ := larger_field expLaws_whole powLaws_whole
    validate_quarterCode (by simp [quarterCode]) terms_quarterCode
    (show quarterCode.fieldSizeBits < 1023 by decide) (by decide)
  exact ⟨_, t', terms_quarterCode, ht', hproximity, hfolding⟩

end Elementary

end FriBound
