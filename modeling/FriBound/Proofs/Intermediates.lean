import FriBound.Proofs.Guards
import FriBound.Proofs.Rounding

/-!
# Values on the way

The evaluation of the terms checks seven quantities and computes many more on the way to them. This
module lists all of them and settles which can leave the range unnoticed.

What is not finite stays so through sums, products, roots and the upper side of a quotient
(`Scalar.Absorbing`). There are two ways out: a quotient by something infinite, which is zero, and
a power with exponent zero, which is one. Of the values that are not checked, two can be infinite
where they take such a way out: the denominator of the proximity error, and `alpha` when there are
no queries. When these two are finite, so is everything.

## Main definitions

* `Scalar.Absorbing` — numbers for which what is not finite stays so
* `Params.intermediates` — all values of an evaluation
* `wideCode` — parameters whose bound comes out as one and should be more

## Main results

* `Params.isFinite_intermediates` — the two values decide for all
* `Elementary.intermediates_finite_iff` — the same for a successful evaluation, and what becomes of
  a term whose denominator is infinite
-/

namespace FriBound

namespace Scalar

/-- Numbers for which what is not finite stays so, the lower side of a quotient apart. -/
class Absorbing (α : Type) [Scalar α] : Prop where
  isFinite_add : ∀ {x y : α}, isFinite (x + y) = true → isFinite x = true ∧ isFinite y = true
  isFinite_mul : ∀ {x y : α}, isFinite (x * y) = true → isFinite x = true ∧ isFinite y = true
  isFinite_div : ∀ {x y : α}, isFinite (x / y) = true → isFinite x = true
  isFinite_sqrt : ∀ {x : α}, isFinite (sqrt x) = true → isFinite x = true

variable {α : Type} [Scalar α]

/-- What repeated squaring computes on its way, with the result at the end. -/
def powSteps (r x : α) (n : Nat) : List α :=
  let r' := if n % 2 = 1 then r * x else r
  if n / 2 = 0 then [r'] else r' :: x * x :: powSteps r' (x * x) (n / 2)
termination_by n

/-- What a running sum goes through, from its start to its end. -/
def sumSteps (xs : List α) : List α := xs.scanl (· + ·) (-ofInt 0)

variable [Absorbing α]

open Absorbing

/-- A finite power was finite all along. The base enters only if there is a digit one, that is,
unless the exponent is zero. -/
theorem isFinite_powSteps {r x : α} {n : Nat} (h : isFinite (powNatFrom r x n) = true) :
    isFinite r = true ∧ (n ≠ 0 → isFinite x = true) ∧ ∀ y ∈ powSteps r x n, isFinite y = true := by
  induction n using Nat.strongRecOn generalizing r x with
  | _ n ih =>
    rw [powNatFrom] at h
    rw [powSteps]
    have hsplit : ∀ {r' : α}, r' = (if n % 2 = 1 then r * x else r) → isFinite r' = true →
        isFinite r = true ∧ (n % 2 = 1 → isFinite x = true) := by
      intro r' hr' hfin
      rw [hr'] at hfin
      split at hfin
      · exact ⟨(isFinite_mul hfin).1, fun _ => (isFinite_mul hfin).2⟩
      · exact ⟨hfin, fun hodd => absurd hodd ‹_›⟩
    generalize hr' : (if n % 2 = 1 then r * x else r) = r' at h ⊢
    by_cases h0 : n / 2 = 0
    · simp only [h0, if_pos] at h ⊢
      obtain ⟨hr, hx⟩ := hsplit hr'.symm h
      refine ⟨hr, fun hn => hx (by omega), ?_⟩
      intro y hy
      rw [List.mem_singleton.mp hy]
      exact h
    · simp only [h0, if_false] at h ⊢
      obtain ⟨hr'fin, hsq, hrest⟩ := ih (n / 2) (by omega) h
      have hxx : isFinite (x * x) = true := hsq h0
      refine ⟨(hsplit hr'.symm hr'fin).1, fun _ => (isFinite_mul hxx).1, ?_⟩
      intro y hy
      rcases List.mem_cons.mp hy with rfl | hy
      · exact hr'fin
      · rcases List.mem_cons.mp hy with rfl | hy
        · exact hxx
        · exact hrest y hy

theorem isFinite_foldl_add {a : α} {xs : List α} (h : isFinite (xs.foldl (· + ·) a) = true) :
    isFinite a = true ∧ (∀ x ∈ xs, isFinite x = true) ∧
      ∀ y ∈ xs.scanl (· + ·) a, isFinite y = true := by
  induction xs generalizing a with
  | nil => simpa using h
  | cons x xs ih =>
    obtain ⟨hax, hxs, hsteps⟩ := ih h
    obtain ⟨ha, hx⟩ := isFinite_add hax
    rw [List.scanl_cons]
    exact ⟨ha, List.forall_mem_cons.mpr ⟨hx, hxs⟩, List.forall_mem_cons.mpr ⟨ha, hsteps⟩⟩

end Scalar

namespace Params

open Scalar

variable {α : Type} [Scalar α]

/-! ### All values of an evaluation -/

/-- The values on the way to the power of `x` to a number of queries. -/
def querySteps (x : α) (queries : UInt64) : List α :=
  if queries.toNat < 2 ^ 31 then powSteps (ofInt 1) x queries.toNat
  else [pow x (ofInt queries.toNat)]

/-- The values that the rate and `alpha` are made of. -/
def rateSteps (p : Params α) : List α :=
  [p.rate, sqrt p.rate, ofInt 2 * p.m, ofInt 1 / (ofInt 2 * p.m),
    ofInt 1 + ofInt 1 / (ofInt 2 * p.m), p.alphaValue]

/-- The sizes, the arities and their running sum. -/
def sizeSteps (p : Params α) : List α :=
  [exp2 (ofInt p.codewordSizeBits.toInt), exp2 (ofInt p.codewordSquareBits),
    exp2 (ofInt p.fieldSizeBits.toInt)]
  ++ p.arityBits.map (fun a => exp2 (ofInt a.toNat))
  ++ sumSteps (p.arityBits.map fun a => exp2 (ofInt a.toNat))

/-- The values that the proximity error is made of. -/
def proximitySteps (p : Params α) : List α :=
  [p.m + ofHalves 1] ++ powSteps (ofInt 1) (p.m + ofHalves 1) 7
  ++ [powNat (p.m + ofHalves 1) 7 * exp2 (ofInt p.codewordSquareBits),
    pow p.rate (ofHalves 3), ofInt 2 * pow p.rate (ofHalves 3), p.denominator, p.proximityValue]

/-- The values that the folding error is made of. -/
def foldingSteps (p : Params α) : List α :=
  let size : α := exp2 (ofInt p.codewordSizeBits.toInt)
  [ofInt 2 * p.m + ofInt 1, size + ofInt 1, (ofInt 2 * p.m + ofInt 1) * (size + ofInt 1),
    (ofInt 2 * p.m + ofInt 1) * (size + ofInt 1) / sqrt p.rate,
    (ofInt 2 * p.m + ofInt 1) * (size + ofInt 1) / sqrt p.rate * p.aritySum, p.foldingValue]

/-- All values that an evaluation of the terms computes, constants and exponents apart. -/
def intermediates (p : Params α) : List α :=
  p.rateSteps ++ p.sizeSteps ++ p.proximitySteps ++ p.foldingSteps
    ++ querySteps p.alphaValue p.numQueries

variable [Absorbing α] {p : Params α}

open Absorbing

theorem isFinite_proximitySteps (h : isFinite p.proximityValue = true)
    (hden : isFinite p.denominator = true) : ∀ y ∈ p.proximitySteps, isFinite y = true := by
  have hnum := isFinite_div h
  have hpow := (isFinite_mul hnum).1
  obtain ⟨-, hbase, hsteps⟩ := isFinite_powSteps hpow
  have htwice := (isFinite_mul hden).1
  simp only [proximitySteps, List.forall_mem_append, List.forall_mem_cons]
  exact ⟨⟨⟨hbase (by decide), by simp⟩, hsteps⟩, hnum, (isFinite_mul htwice).2, htwice, hden, h,
    by simp⟩

theorem isFinite_foldingSteps (h : isFinite p.foldingValue = true) :
    ∀ y ∈ p.foldingSteps, isFinite y = true := by
  have hsum := isFinite_div h
  have hquot := (isFinite_mul hsum).1
  have hprod := isFinite_div hquot
  simp only [foldingSteps, List.forall_mem_cons]
  exact ⟨(isFinite_mul hprod).1, (isFinite_mul hprod).2, hprod, hquot, hsum, h, by simp⟩

theorem isFinite_sizeSteps (hsize : isFinite (exp2 (ofInt p.codewordSizeBits.toInt) : α) = true)
    (hsquare : isFinite (exp2 (ofInt p.codewordSquareBits) : α) = true)
    (hfield : isFinite (exp2 (ofInt p.fieldSizeBits.toInt) : α) = true)
    (hsum : isFinite p.aritySum = true) : ∀ y ∈ p.sizeSteps, isFinite y = true := by
  obtain ⟨-, harities, hsteps⟩ := isFinite_foldl_add hsum
  simp only [sizeSteps, List.forall_mem_append, List.forall_mem_cons]
  exact ⟨⟨⟨hsize, hsquare, hfield, by simp⟩, harities⟩, hsteps⟩

/-- Twice `m` is seen in the folding error, so a finite `alpha` does not have to tell. -/
theorem isFinite_rateSteps (halpha : isFinite p.alphaValue = true)
    (hfolding : isFinite p.foldingValue = true) : ∀ y ∈ p.rateSteps, isFinite y = true := by
  obtain ⟨hsqrt, hfactor⟩ := isFinite_mul halpha
  have htwice : isFinite (ofInt 2 * p.m) = true :=
    (isFinite_add (isFinite_foldingSteps hfolding _ (List.mem_cons_self ..))).1
  simp only [rateSteps, List.forall_mem_cons]
  exact ⟨isFinite_sqrt hsqrt, hsqrt, htwice, (isFinite_add hfactor).2, hfactor, halpha, by simp⟩

theorem isFinite_querySteps {x : α} {queries : UInt64}
    (h : isFinite (queryPower x queries) = true) :
    ∀ y ∈ querySteps x queries, isFinite y = true := by
  rw [queryPower] at h
  rw [querySteps]
  split at h
  · rw [if_pos ‹_›]
    exact (isFinite_powSteps h).2.2
  · rw [if_neg ‹_›]
    simpa using h

/-- **Two values decide for all.** If all checked quantities are finite, then so is every value of
the evaluation, provided that `alpha` and the denominator of the proximity error are. -/
theorem isFinite_intermediates (h : ∀ g ∈ p.guarded, isFinite g.2 = true) :
    (∀ y ∈ p.intermediates, isFinite y = true) ↔
      isFinite p.alphaValue = true ∧ isFinite p.denominator = true := by
  simp only [guarded, List.forall_mem_cons] at h
  obtain ⟨hsize, hsquare, hfield, hsum, hproximity, hfolding, hquery, -⟩ := h
  constructor
  · intro hall
    exact ⟨hall _ (by simp [intermediates, rateSteps]),
      hall _ (by simp [intermediates, proximitySteps])⟩
  · rintro ⟨halpha, hden⟩
    simp only [intermediates, List.forall_mem_append]
    exact ⟨⟨⟨⟨isFinite_rateSteps halpha hfolding, isFinite_sizeSteps hsize hsquare hfield hsum⟩,
      isFinite_proximitySteps hproximity hden⟩, isFinite_foldingSteps hfolding⟩,
      isFinite_querySteps hquery⟩

end Params

instance (E : Elementary) : @Scalar.Absorbing Binary64 E.scalar :=
  letI := E.scalar
  { isFinite_add := Binary64.isFinite_add
    isFinite_mul := Binary64.isFinite_mul
    isFinite_div := fun h => (Binary64.isFinite_div h).1
    isFinite_sqrt := Binary64.isFinite_sqrt }

namespace Elementary

variable (E : Elementary)

@[inherit_doc alpha]
abbrev denominator (p : Params Binary64) : Binary64 :=
  letI := E.scalar; p.denominator

@[inherit_doc alpha]
abbrev intermediates (p : Params Binary64) : List Binary64 :=
  letI := E.scalar; p.intermediates

variable {E} {p : Params Binary64}

/-- A proximity error with an infinite denominator is lost. -/
theorem proximity_eq_zero (h : (E.values p).proximity.isFinite = true)
    (hden : (E.denominator p).isFinite = false) : ∃ s, (E.values p).proximity = .zero s :=
  (Binary64.isFinite_div h).2 hden

/-- And so is a folding error at an infinite rate. -/
theorem folding_eq_zero (h : (E.values p).folding.isFinite = true)
    (hrate : (E.values p).rate.isFinite = false) : ∃ s, (E.values p).folding = .zero s := by
  have hsqrt : (E.values p).rate.sqrt.isFinite = false :=
    Bool.eq_false_iff.mpr fun hs => by simp [Binary64.isFinite_sqrt hs] at hrate
  exact Binary64.quotient_lost h hsqrt

/-- **What a success says about the values on the way.** If the terms or the bound are returned,
all values were finite exactly when `alpha` and the denominator of the proximity error were. With
an infinite denominator the proximity error is returned as a zero, and at an infinite rate the
folding error is. -/
theorem intermediates_finite_iff (h : (∃ t, E.terms p = .ok t) ∨ ∃ v, E.bound p = .ok v) :
    E.terms p = .ok (E.values p) ∧
      ((∀ y ∈ E.intermediates p, y.isFinite = true) ↔
        (E.values p).alpha.isFinite = true ∧ (E.denominator p).isFinite = true) ∧
      ((E.denominator p).isFinite = false → ∃ s, (E.values p).proximity = .zero s) ∧
      ((E.values p).rate.isFinite = false → ∃ s, (E.values p).folding = .zero s) := by
  have hok : ∃ t, E.terms p = .ok t := by
    rcases h with h | ⟨v, hv⟩
    · exact h
    · obtain ⟨t, ht, -⟩ := bound_eq_ok_iff_terms.mp hv
      exact ⟨t, ht⟩
  obtain ⟨t, ht⟩ := hok
  obtain ⟨-, -, hguarded, rfl⟩ := terms_eq_ok_iff_guarded.mp ht
  have hvalues := hguarded
  simp only [guarded, Params.guarded, List.forall_mem_cons] at hvalues
  obtain ⟨-, -, -, -, hproximity, hfolding, -⟩ := hvalues
  exact ⟨ht, @Params.isFinite_intermediates _ E.scalar _ p hguarded,
    proximity_eq_zero hproximity, folding_eq_zero hfolding⟩

/-- A large domain and a rate above one. Its proximity error is `1 / 8`, a quotient of `2 ^ 1022` by
`2 ^ 1025`, and the latter is out of range. -/
def wideCode : Params Binary64 where
  numFunctions := 1
  rateBits := -682
  codewordSizeBits := 511
  fieldSizeBits := 1
  m := .ofHalves 1
  arityBits := []
  numRounds := 0
  numQueries := 0

theorem terms_wideCode : tabulated.terms wideCode = .ok (tabulated.values wideCode) := by
  have hm : ∀ s, wideCode.m ≠ .zero s := by decide +kernel
  exact terms_eq_ok_iff_guarded.mpr
    ⟨by decide +kernel, fun ⟨s, hs⟩ => hm s hs, by decide +kernel, rfl⟩

theorem wideCode_proximity_eq_zero :
    tabulated.terms wideCode = .ok (tabulated.values wideCode) ∧
      ∃ s, (tabulated.values wideCode).proximity = .zero s :=
  ⟨terms_wideCode, (intermediates_finite_iff (.inl ⟨_, terms_wideCode⟩)).2.2.1 (by decide +kernel)⟩

/-- The bound of this code is returned as one, although a value on the way was infinite and the
proximity error was lost by it. -/
theorem wideCode_not_finite :
    tabulated.terms wideCode = .ok (tabulated.values wideCode) ∧
      tabulated.bound wideCode = .ok (.ofInt 1) ∧
      (∃ y ∈ tabulated.intermediates wideCode, y.isFinite = false) ∧
      (tabulated.values wideCode).proximity = .zero false := by
  have hbound : tabulated.bound wideCode = .ok (.ofInt 1) :=
    bound_eq_ok_iff_terms.mpr ⟨_, terms_wideCode, by decide +kernel, by decide +kernel⟩
  exact ⟨terms_wideCode, hbound, by decide +kernel, by decide +kernel⟩

end Elementary

end FriBound
