import FriBound.Proofs.LogOrder

/-!
# The range of the logarithm of a sum of powers

The logarithm of a sum of powers is formed for exponents of any size, in lists of any length, and
among them there may be infinities and what is not a number. The fold that looks for the largest
exponent passes over a NaN, so what happens is decided by the numbers in the list alone: plus
infinity is the largest if it is there, minus infinity is the largest if there is nothing else, and
otherwise the largest is finite.

Only in the last case are powers formed. Their exponents are differences to the largest one. Such a
difference is never positive, but may be minus infinity although both sides are finite. The powers
lie between zero and one, one of them is one, and their running sum stays at `2 ^ 53` if it gets
that far. So the logarithm of the sum is small next to the end of the format, and the result is
finite. A NaN comes back at this point: it is passed over by the fold and met by the sum.

## Main definitions

* `Elementary.RangeLaws` — what is asked of the elementary functions
* `Binary64.Largest` — a number is the largest of a list
* `Elementary.LogSumRange` — which of the results there is, and how large it is

## Main results

* `Binary64.largest_cases` — the kinds of list
* `Elementary.logSum_range` — the result for any list
-/

namespace FriBound

namespace Binary64

variable {x t : Binary64} {xs : List Binary64}

/-- The largest number of a list. What is not a number is passed over. -/
def Largest (xs : List Binary64) (t : Binary64) : Prop := t ∈ xs ∧ ∀ x ∈ xs, x ≠ nan → x ≤ t

/-- A finite largest number keeps plus infinity out. -/
theorem Largest.ne_inf (h : Largest xs t) (hfin : t.isFinite = true) : ∀ x ∈ xs, x ≠ inf false := by
  rintro x hx rfl
  rw [eq_of_inf_le (h.2 _ hx (by simp))] at hfin
  exact Bool.false_ne_true hfin

/-- Next to minus infinity and NaN there is a finite number, if plus infinity is left out. -/
theorem exists_isFinite (hinf : inf false ∉ xs) (hne : ¬∀ x ∈ xs, x = nan ∨ x = inf true) :
    ∃ x ∈ xs, x.isFinite = true := by
  obtain ⟨x, hrest⟩ := not_forall.mp hne
  obtain ⟨hx, hnot⟩ := Classical.not_imp.mp hrest
  refine ⟨x, hx, ?_⟩
  cases x with
  | nan => exact absurd (Or.inl rfl) hnot
  | fin s m => rfl
  | inf s =>
    cases s with
    | true => exact absurd (Or.inr rfl) hnot
    | false => exact absurd hx hinf

/-- The three kinds of list: the largest number is plus infinity, minus infinity or finite. -/
theorem largest_cases (xs : List Binary64) :
    inf false ∈ xs ∨ (∀ x ∈ xs, x = nan ∨ x = inf true) ∨
      ∃ t, Largest xs t ∧ t.isFinite = true ∧ xs.foldl larger (inf true) = t := by
  by_cases hinf : inf false ∈ xs
  · exact Or.inl hinf
  by_cases hneg : ∀ x ∈ xs, x = nan ∨ x = inf true
  · exact Or.inr (Or.inl hneg)
  · obtain ⟨t, ht, htop, hfin, hall⟩ := Elementary.exists_largest
      (fun x hx h => hinf (h ▸ hx)) (exists_isFinite hinf hneg)
    exact Or.inr (Or.inr ⟨t, ⟨ht, hall⟩, hfin, htop⟩)

end Binary64

namespace Elementary

open Binary64

/-- What is asked of the power of two and of the logarithm. That the logarithms are finite would not
do: the largest exponent may be the largest number of the format. -/
structure RangeLaws (E : Elementary) : Prop extends SumLaws E where
  /-- The logarithm of a finite number from one on is not negative, and not above the exponent at
  which the format ends. -/
  log2_bounds : ∀ x : Binary64, x.isFinite = true → ofInt 1 ≤ x →
    zero false ≤ E.log2 x ∧ E.log2 x ≤ ofInt 1024

variable {E : Elementary} {t : Binary64} {xs : List Binary64}

/-! ### The largest exponent -/

theorem logSum_of_negInf (hxs : ∀ x ∈ xs, x = nan ∨ x = inf true) : E.logSum xs = inf true := by
  obtain ⟨hne, -, -, hmem⟩ := foldl_larger_spec xs (t := inf true) (by simp)
  refine logSum_of_not_finite (hmem.elim id fun h => ?_) rfl
  exact (hxs _ h).resolve_left hne

/-! ### Powers of finite exponents -/

/-- The sum is at most the number of powers, which is exact as long as it matters. -/
theorem powerSum_le_min (h : E.SumLaws) (ht : t ∈ xs) (hfin : t.isFinite = true)
    (hxs : ∀ x ∈ xs, x ≤ t) : E.powerSum t xs ≤ ofInt (min xs.length (2 ^ 53) : Nat) := by
  rcases Nat.le_total xs.length (2 ^ 53) with hle | hge
  · rw [Nat.min_eq_left hle]
    exact powerSum_le_length h ht hfin hxs
  · rw [Nat.min_eq_right hge]
    exact (powerSum_bounds h ht hfin hxs).2

/-- What happens on the way from exponents with the largest number `t` to the result. -/
structure PowersInRange (E : Elementary) (xs : List Binary64) (t : Binary64) : Prop where
  /-- Each power lies between zero and one, also where its exponent has become minus infinity. -/
  power_bounds : ∀ x ∈ xs, zero false ≤ E.exp2 (x - t) ∧ E.exp2 (x - t) ≤ ofInt 1
  /-- No running sum is out of range, -/
  isFinite_running : ∀ y ∈ (xs.map fun x => E.exp2 (x - t)).scanl (· + ·) (-ofInt 0),
    y.isFinite = true
  /-- and the whole sum lies between one and the number of exponents. -/
  one_le_sum : ofInt 1 ≤ E.powerSum t xs
  sum_le : E.powerSum t xs ≤ ofInt (min xs.length (2 ^ 53) : Nat)
  /-- The result is finite, and not below the largest exponent. -/
  logSum_eq : E.logSum xs = t + E.log2 (E.powerSum t xs)
  isFinite_logSum : (E.logSum xs).isFinite = true
  le_logSum : t ≤ E.logSum xs

/-- Exponents without a NaN, the largest of which is finite. -/
theorem powersInRange (h : E.RangeLaws) (ht : t ∈ xs) (hfin : t.isFinite = true)
    (hxs : ∀ x ∈ xs, x ≤ t) (htop : xs.foldl larger (inf true) = t) : E.PowersInRange xs t := by
  have heq := logSum_of_isFinite (E := E) htop hfin
  obtain ⟨hone, hend⟩ := powerSum_bounds h.toSumLaws ht hfin hxs
  have hsum := isFinite_of_le_of_le hone hend isFinite_one (isFinite_two_pow (by decide))
  obtain ⟨hnonneg, hlarge⟩ := h.log2_bounds _ hsum hone
  have hlog : Within 10 (E.log2 (E.powerSum t xs)) := by
    refine within_of_abs_le (e := 10) (le_trans ?_ hlarge) (by decide)
    obtain ⟨a, ha, hpos⟩ := zero_le_iff_place.mp hnonneg
    exact abs_le_iff_place.mpr ⟨a, a, ha, ha, by omega⟩
  exact {
    power_bounds := fun x hx => h.exp2_bounds _ (sub_nonpos (hxs x hx) hfin)
    isFinite_running := (Scalar.isFinite_foldl_add hsum).2.2
    one_le_sum := hone
    sum_le := powerSum_le_min h.toSumLaws ht hfin hxs
    logSum_eq := heq
    isFinite_logSum := heq ▸ isFinite_add_of_within hfin hlog (by decide)
    le_logSum := heq ▸ (le_add_of_nonneg hfin (hlog.isFinite (by decide)) hnonneg).1 }

/-! ### The result -/

/-- Which result there is for a list of exponents. -/
structure LogSumRange (E : Elementary) (xs : List Binary64) : Prop where
  /-- Plus infinity is the result if it is an exponent, and only then, next to a NaN or not. -/
  eq_inf_iff : E.logSum xs = inf false ↔ inf false ∈ xs
  /-- Without a NaN, the result is minus infinity if all exponents are, -/
  eq_negInf_iff : nan ∉ xs → (E.logSum xs = inf true ↔ ∀ x ∈ xs, x = inf true)
  /-- and a number next to the largest exponent if there is a finite one and no infinite one. -/
  exists_largest : nan ∉ xs → (∃ x ∈ xs, x ≠ inf true) → inf false ∉ xs →
    ∃ t ∈ xs, (∀ x ∈ xs, x ≤ t) ∧ t.isFinite = true ∧ E.PowersInRange xs t
  /-- A NaN is the result if it meets a sum of powers, -/
  eq_nan_iff : nan ∈ xs → (E.logSum xs = nan ↔ ∃ t, Largest xs t ∧ t.isFinite = true)
  /-- and it is passed over if no exponent is finite. -/
  eq_negInf_iff_of_nan : nan ∈ xs → (E.logSum xs = inf true ↔
    ∀ x ∈ xs, x.isFinite = false ∧ x ≠ inf false)

namespace LogSumRange

/-- Plus infinity among the exponents decides, NaN or not. -/
theorem of_inf_mem (hmem : inf false ∈ xs) : E.LogSumRange xs := by
  have hsum : E.logSum xs = inf false := logSum_of_inf_mem hmem
  refine {
    eq_inf_iff := iff_of_true hsum hmem
    eq_negInf_iff := fun _ => iff_of_false (by simp [hsum]) fun hall => by simpa using hall _ hmem
    exists_largest := fun _ _ hinf => absurd hmem hinf
    eq_nan_iff := fun _ => iff_of_false (by simp [hsum]) ?_
    eq_negInf_iff_of_nan := fun _ => iff_of_false (by simp [hsum]) fun hall => (hall _ hmem).2 rfl }
  rintro ⟨t, ht, hfin⟩
  exact ht.ne_inf hfin _ hmem rfl

/-- Next to minus infinity, a NaN is passed over. -/
theorem of_negInf (hall : ∀ x ∈ xs, x = nan ∨ x = inf true) : E.LogSumRange xs := by
  have hsum : E.logSum xs = inf true := logSum_of_negInf hall
  have hnone : ∀ x ∈ xs, x.isFinite = false ∧ x ≠ inf false := by
    intro x hx
    rcases hall x hx with rfl | rfl <;> simp [isFinite]
  have hneg : nan ∉ xs → ∀ x ∈ xs, x = inf true := fun hnan x hx =>
    (hall x hx).resolve_left fun heq => hnan (heq ▸ hx)
  refine {
    eq_inf_iff := iff_of_false (by simp [hsum]) fun hmem => (hnone _ hmem).2 rfl
    eq_negInf_iff := fun hnan => iff_of_true hsum (hneg hnan)
    exists_largest := ?_
    eq_nan_iff := fun _ => iff_of_false (by simp [hsum]) ?_
    eq_negInf_iff_of_nan := fun _ => iff_of_true hsum hnone }
  · rintro hnan ⟨x, hx, hne⟩ -
    exact absurd (hneg hnan x hx) hne
  · rintro ⟨t, ht, hfin⟩
    exact Bool.false_ne_true ((hnone t ht.1).1.symm.trans hfin)

/-- Powers are formed, and a NaN gets into their sum. -/
theorem of_nan_mem (h : E.RangeLaws) (hnan : nan ∈ xs) (ht : Largest xs t)
    (hfin : t.isFinite = true) : E.LogSumRange xs := by
  have hinf := ht.ne_inf hfin
  have hsum : E.logSum xs = nan := logSum_of_nan_mem h.toSpecialValues hnan hinf ⟨t, ht.1, hfin⟩
  exact {
    eq_inf_iff := iff_of_false (by simp [hsum]) fun hmem => hinf _ hmem rfl
    eq_negInf_iff := fun hnot => absurd hnan hnot
    exists_largest := fun hnot => absurd hnan hnot
    eq_nan_iff := fun _ => iff_of_true hsum ⟨t, ht, hfin⟩
    eq_negInf_iff_of_nan := fun _ => iff_of_false (by simp [hsum]) fun hall =>
      Bool.false_ne_true ((hall t ht.1).1.symm.trans hfin) }

/-- Powers are formed, and all are numbers. -/
theorem of_powers (hnan : nan ∉ xs) (ht : t ∈ xs) (hle : ∀ x ∈ xs, x ≤ t)
    (hfin : t.isFinite = true) (hpowers : E.PowersInRange xs t) : E.LogSumRange xs := by
  have hlargest : Largest xs t := ⟨ht, fun x hx _ => hle x hx⟩
  have hne : ∀ s, E.logSum xs ≠ inf s := by
    intro s heq
    have hresult := hpowers.isFinite_logSum
    rw [heq] at hresult
    exact Bool.false_ne_true hresult
  refine {
    eq_inf_iff := iff_of_false (hne false) fun hmem => hlargest.ne_inf hfin _ hmem rfl
    eq_negInf_iff := fun _ => iff_of_false (hne true) fun hall => ?_
    exists_largest := fun _ _ _ => ⟨t, ht, hle, hfin, hpowers⟩
    eq_nan_iff := fun hmem => absurd hmem hnan
    eq_negInf_iff_of_nan := fun hmem => absurd hmem hnan }
  rw [hall t ht] at hfin
  exact Bool.false_ne_true hfin

end LogSumRange

/-- **The logarithm of a sum of powers is formed within the range**, whatever the exponents are and
however many there are. -/
theorem logSum_range (h : E.RangeLaws) (xs : List Binary64) : E.LogSumRange xs := by
  rcases largest_cases xs with hmem | hall | ⟨t, ht, hfin, htop⟩
  · exact .of_inf_mem hmem
  · exact .of_negInf hall
  by_cases hnan : nan ∈ xs
  · exact .of_nan_mem h hnan ht hfin
  · have hle : ∀ x ∈ xs, x ≤ t := fun x hx => ht.2 x hx fun heq => hnan (heq ▸ hx)
    exact .of_powers hnan ht.1 hle hfin (powersInRange h ht.1 hfin hle htop)

/-- The whole part of a logarithm is within these bounds as well. -/
theorem rangeLaws_whole : whole.RangeLaws where
  toSumLaws := logLaws_whole.sumLaws
  log2_bounds x hx hone := by
    refine ⟨orderLaws_whole.log2_nonneg x hone, ?_⟩
    obtain ⟨m, rfl, hm⟩ := exists_fin_of_pos hx (lt_of_lt_of_le one_pos hone)
    have hlog := m.small
    rw [unitLimit_eq, ← Nat.log2_lt hm] at hlog
    show wholeLog2 (fin false m) ≤ _
    rw [wholeLog2_fin hm]
    refine ofInt_le_ofInt ?_
    unfold topDigits at hlog
    unfold places
    omega

/-- Exponents next to both ends of the format. The difference of the two is out of range. -/
def farExponents : List Binary64 := [twoPow 1023, -twoPow 1023, twoPow 1023]

theorem logSum_range_farExponents :
    (∃ t ∈ farExponents, (∀ x ∈ farExponents, x ≤ t) ∧ t.isFinite = true ∧
      whole.PowersInRange farExponents t) ∧
    whole.logSum [nan, ofInt 2] = nan ∧ whole.logSum [nan, inf true] = inf true := by
  have hfar := logSum_range rangeLaws_whole farExponents
  have hmet := logSum_range rangeLaws_whole [nan, ofInt 2]
  have hpassed := logSum_range rangeLaws_whole [nan, inf true]
  have hlargest : Largest [nan, ofInt 2] (ofInt 2) :=
    ⟨by simp, by simp [le_refl (ne_nan_of_isFinite isFinite_two)]⟩
  exact ⟨hfar.exists_largest (by decide +kernel) (by decide +kernel) (by decide +kernel),
    (hmet.eq_nan_iff (by simp)).mpr ⟨_, hlargest, isFinite_two⟩,
    (hpassed.eq_negInf_iff_of_nan (by simp)).mpr (by simp [isFinite])⟩

end Elementary

end FriBound
