import FriBound.Binary64.Elementary
import FriBound.Bound
import FriBound.Message
import FriBound.Proofs.Order

/-!
# How the evaluation of the bound ends

The evaluation of the terms computes seven quantities, one after the other, and stops at the first
that is not finite. Here the quantities are listed without the checks, in the order of the checks,
and the evaluation is shown to be: the checks of `m`, then a walk along the list.

No property of the elementary functions enters. What the program reports is decided by which values
are finite, whatever `exp2` and `pow` return.

## Main definitions

* `Params.values` — the terms without any check
* `Params.guarded` — the quantities that are checked, in their order, each under its name
* `Params.firstOverflow` — the first of them that is not finite
* `Elementary.LinearOutcome` — how `alpha`, `terms`, `bound` and `boundOfValid` end

## Main results

* `Params.terms_eq_checkAll` — the evaluation is the walk along the list
* `Elementary.linearOutcome` — how the evaluation ends for any parameters
-/

namespace FriBound

namespace Params

open Scalar

variable {α : Type} [Scalar α]

/-! ### The quantities without the checks -/

/-- `√ρ * (1 + 1 / (2 * m))`, for any `m`. -/
def alphaValue (p : Params α) : α := sqrt p.rate * (ofInt 1 + ofInt 1 / (ofInt 2 * p.m))

/-- What the proximity error is divided by. -/
def denominator (p : Params α) : α :=
  ofInt 2 * pow p.rate (ofHalves 3) * exp2 (ofInt p.fieldSizeBits.toInt)

def proximityValue (p : Params α) : α :=
  powNat (p.m + ofHalves 1) 7 * exp2 (ofInt p.codewordSquareBits) / p.denominator

def foldingValue (p : Params α) : α :=
  (ofInt 2 * p.m + ofInt 1) * (exp2 (ofInt p.codewordSizeBits.toInt) + ofInt 1) / sqrt p.rate
    * p.aritySum / exp2 (ofInt p.fieldSizeBits.toInt)

def queryValue (p : Params α) : α := queryPower p.alphaValue p.numQueries

/-- The terms as the formulas give them. -/
def values (p : Params α) : Terms α where
  rate := p.rate
  alpha := p.alphaValue
  proximity := p.proximityValue
  folding := p.foldingValue
  query := p.queryValue

/-- The quantities that are checked, in the order of the checks. -/
def guarded (p : Params α) : List (Quantity × α) :=
  [(.codewordSize, exp2 (ofInt p.codewordSizeBits.toInt)),
   (.codewordSizeSquared, exp2 (ofInt p.codewordSquareBits)),
   (.fieldSize, exp2 (ofInt p.fieldSizeBits.toInt)),
   (.aritySum, p.aritySum),
   (.proximity, p.proximityValue),
   (.folding, p.foldingValue),
   (.query, p.queryValue)]

/-- The first of the quantities that is not finite. -/
def firstOverflow (p : Params α) : Option Quantity :=
  (p.guarded.find? fun g => !isFinite g.2).map Prod.fst

/-! ### The checks in a row -/

/-- Checks the quantities one after the other. -/
def checkAll : List (Quantity × α) → Except (BoundError α) Unit
  | [] => .ok ()
  | (what, x) :: rest => do
    let _ ← finite what x
    checkAll rest

/-- What follows a check matters at the checked value only. -/
theorem finite_bind_congr {β : Type} {what : Quantity} {x : α}
    {f g : α → Except (BoundError α) β} (h : f x = g x) :
    (finite what x >>= f) = (finite what x >>= g) := by
  rw [finite]
  split
  · exact h
  · rfl

theorem checkAll_cons_bind {β : Type} (what : Quantity) (x : α) (rest : List (Quantity × α))
    (k : Unit → Except (BoundError α) β) :
    (checkAll ((what, x) :: rest) >>= k) = (finite what x >>= fun _ => checkAll rest >>= k) := by
  rw [checkAll]
  cases finite what x <;> rfl

theorem checkAll_eq (gs : List (Quantity × α)) :
    checkAll gs = match (gs.find? fun g => !isFinite g.2).map Prod.fst with
      | some what => .error (.overflow what)
      | none => .ok () := by
  induction gs with
  | nil => rfl
  | cons g gs ih =>
    rw [checkAll, List.find?_cons, finite]
    by_cases h : isFinite g.2
    · rw [if_pos h, h]
      exact ih
    · rw [if_neg h, Bool.eq_false_iff.mpr h]
      rfl

/-- **The evaluation is a walk along the list.** Once `m` has passed its checks, the terms are
checked in the order of `guarded` and are then the values that the formulas give. -/
theorem terms_eq_checkAll {p : Params α} (h : p.alpha = .ok p.alphaValue) :
    p.terms = (checkAll p.guarded >>= fun _ => .ok p.values) := by
  unfold terms termsAt guarded
  simp only [h, checkAll_cons_bind]
  show (finite Quantity.codewordSize _ >>= _) = _
  iterate 7 apply finite_bind_congr
  rfl

theorem firstOverflow_eq_none_iff {p : Params α} :
    p.firstOverflow = none ↔ ∀ g ∈ p.guarded, isFinite g.2 = true := by
  simp [firstOverflow]

theorem firstOverflow_ne_total (p : Params α) : p.firstOverflow ≠ some .total := by
  intro h
  obtain ⟨g, hg, hname⟩ := Option.map_eq_some_iff.mp h
  have hmem := List.mem_of_find?_eq_some hg
  simp only [guarded, List.mem_cons, List.not_mem_nil, or_false] at hmem
  rcases hmem with rfl | rfl | rfl | rfl | rfl | rfl | rfl <;> cases hname

/-! ### The checks of `m` -/

section

variable {p : Params α}

theorem alpha_of_zero (h : same p.m (ofInt 0) = true) : p.alpha = .error .divisionByZero := by
  rw [alpha, if_pos h]

theorem alpha_of_not_finite (hm : same p.m (ofInt 0) = false) (h : isFinite p.m = false) :
    p.alpha = .error (.invalid (.notFinite p.m)) := by
  rw [alpha, hm, h]
  rfl

theorem alpha_of_finite (hm : same p.m (ofInt 0) = false) (h : isFinite p.m = true) :
    p.alpha = .ok p.alphaValue := by
  rw [alpha, hm, h]
  rfl

theorem terms_of_alpha_error {e : BoundError α} (h : p.alpha = .error e) :
    p.terms = .error e := by
  rw [terms, termsAt, h]
  rfl

theorem terms_of_alpha_ok (h : p.alpha = .ok p.alphaValue) :
    p.terms = match p.firstOverflow with
      | some what => .error (.overflow what)
      | none => .ok p.values := by
  rw [terms_eq_checkAll h, checkAll_eq, firstOverflow]
  cases (p.guarded.find? fun g => !isFinite g.2).map Prod.fst <;> rfl

theorem bound_of_terms_error {e : BoundError α} (h : p.terms = .error e) :
    p.bound = .error e := by
  rw [bound, h]
  rfl

theorem bound_of_terms_ok {t : Terms α} (h : p.terms = .ok t) :
    p.bound = finite .total t.total := by
  rw [bound, h]
  rfl

theorem boundOfValid_eq :
    p.boundOfValid = match p.validate with
      | .error e => .error e
      | .ok () => p.bound := by
  rw [boundOfValid]
  cases p.validate <;> rfl

end

end Params

/-! ### Rounded arithmetic -/

namespace Elementary

variable (E : Elementary)

/-- The evaluations with the elementary functions `E`. -/
abbrev alpha (p : Params Binary64) : Except (BoundError Binary64) Binary64 :=
  letI := E.scalar; p.alpha

@[inherit_doc alpha]
abbrev terms (p : Params Binary64) : Except (BoundError Binary64) (Terms Binary64) :=
  letI := E.scalar; p.terms

@[inherit_doc alpha]
abbrev bound (p : Params Binary64) : Except (BoundError Binary64) Binary64 :=
  letI := E.scalar; p.bound

@[inherit_doc alpha]
abbrev boundOfValid (p : Params Binary64) : Except (BoundError Binary64) Binary64 :=
  letI := E.scalar; p.boundOfValid

@[inherit_doc alpha]
abbrev values (p : Params Binary64) : Terms Binary64 :=
  letI := E.scalar; p.values

@[inherit_doc alpha]
abbrev guarded (p : Params Binary64) : List (Quantity × Binary64) :=
  letI := E.scalar; p.guarded

@[inherit_doc alpha]
abbrev firstOverflow (p : Params Binary64) : Option Quantity :=
  letI := E.scalar; p.firstOverflow

example : tabulated.terms = Params.terms := rfl

/-- How the evaluation of the bound ends. -/
structure LinearOutcome (p : Params Binary64) : Prop where
  /-- A zero `m`, of either sign, is a division by zero, for all of them. -/
  alpha_eq_divisionByZero_iff : E.alpha p = .error .divisionByZero ↔ ∃ s, p.m = .zero s
  terms_eq_divisionByZero_iff : E.terms p = .error .divisionByZero ↔ ∃ s, p.m = .zero s
  bound_eq_divisionByZero_iff : E.bound p = .error .divisionByZero ↔ ∃ s, p.m = .zero s
  /-- An `m` that is infinite or NaN is refused, by all of them with the same words. -/
  alpha_eq_invalid_iff : ∀ why, E.alpha p = .error (.invalid why) ↔
    p.m.isFinite = false ∧ why = .notFinite p.m
  terms_eq_invalid_iff : ∀ why, E.terms p = .error (.invalid why) ↔
    p.m.isFinite = false ∧ why = .notFinite p.m
  bound_eq_invalid_iff : ∀ why, E.bound p = .error (.invalid why) ↔
    p.m.isFinite = false ∧ why = .notFinite p.m
  /-- Any other `m` gives an `alpha`. -/
  alpha_eq_ok_iff : ∀ a, E.alpha p = .ok a ↔
    p.m.isFinite = true ∧ (¬∃ s, p.m = .zero s) ∧ a = (E.values p).alpha
  /-- The names of the quantities, in the order in which they are checked. -/
  guarded_names : (E.guarded p).map (fun g => g.1.name) =
    ["2^codeword_size_bits", "2^(2 * codeword_size_bits)", "2^field_size_bits",
      "sum of 2^arity_bits", "term_1", "term_2", "term_3"]
  /-- The terms fail at the first quantity that is not finite. -/
  terms_eq_overflow_iff : ∀ what, E.terms p = .error (.overflow what) ↔
    p.m.isFinite = true ∧ (¬∃ s, p.m = .zero s) ∧ E.firstOverflow p = some what
  /-- They exist when all of the quantities are finite, and only then. -/
  terms_eq_ok_iff : ∀ t, E.terms p = .ok t ↔
    p.m.isFinite = true ∧ (¬∃ s, p.m = .zero s) ∧
      (∀ g ∈ E.guarded p, g.2.isFinite = true) ∧ t = E.values p
  /-- The bound fails as the terms do. -/
  bound_eq_error_of_terms : ∀ e, E.terms p = .error e → E.bound p = .error e
  /-- Or it fails since the sum of the terms, from left to right, is not finite. -/
  bound_eq_overflow_total_iff : E.bound p = .error (.overflow .total) ↔
    ∃ t, E.terms p = .ok t ∧ (t.proximity + t.folding + t.query).isFinite = false
  /-- And otherwise it is that sum. -/
  bound_eq_ok_iff : ∀ v, E.bound p = .ok v ↔
    ∃ t, E.terms p = .ok t ∧ v = t.proximity + t.folding + t.query ∧ v.isFinite = true
  total_name : Quantity.total.name = "soundness error"
  /-- For parameters that have to be valid, the refusal of an invalid one comes first. -/
  boundOfValid_eq : E.boundOfValid p = match p.validate with
    | .error e => .error e
    | .ok () => E.bound p

variable {E} {p : Params Binary64}

/-- An error of the terms is one of the bound. -/
theorem bound_of_terms_error {e : BoundError Binary64} (h : E.terms p = .error e) :
    E.bound p = .error e :=
  @Params.bound_of_terms_error _ E.scalar p e h

/-- The bound has one error more than the terms. -/
theorem bound_of_terms_ok {t : Terms Binary64} (h : E.terms p = .ok t) :
    E.bound p = if (t.proximity + t.folding + t.query).isFinite
      then .ok (t.proximity + t.folding + t.query) else .error (.overflow .total) :=
  @Params.bound_of_terms_ok _ E.scalar p t h

theorem boundOfValid_eq_match : E.boundOfValid p = match p.validate with
    | .error e => .error e
    | .ok () => E.bound p := by
  have hsame : @Params.validate _ E.scalar p = p.validate := rfl
  rw [boundOfValid, @Params.boundOfValid_eq _ E.scalar p, hsame]
  cases p.validate <;> rfl

/-- The four ways in which the evaluation of the terms ends. They exclude each other. -/
theorem terms_cases (E : Elementary) (p : Params Binary64) :
    ((∃ s, p.m = .zero s) ∧ p.m.isFinite = true ∧
      E.alpha p = .error .divisionByZero ∧ E.terms p = .error .divisionByZero) ∨
    ((¬∃ s, p.m = .zero s) ∧ p.m.isFinite = false ∧
      E.alpha p = .error (.invalid (.notFinite p.m)) ∧
      E.terms p = .error (.invalid (.notFinite p.m))) ∨
    ((¬∃ s, p.m = .zero s) ∧ p.m.isFinite = true ∧ E.alpha p = .ok (E.values p).alpha ∧
      ∃ what, what ≠ .total ∧ E.firstOverflow p = some what ∧
        E.terms p = .error (.overflow what)) ∨
    ((¬∃ s, p.m = .zero s) ∧ p.m.isFinite = true ∧ E.alpha p = .ok (E.values p).alpha ∧
      E.firstOverflow p = none ∧ E.terms p = .ok (E.values p)) := by
  let := E.scalar
  by_cases hzero : ∃ s, p.m = .zero s
  · have hfin : p.m.isFinite = true := by
      obtain ⟨s, hs⟩ := hzero
      rw [hs]
      rfl
    have halpha : p.alpha = .error .divisionByZero :=
      Params.alpha_of_zero (Binary64.same_zero_iff.mpr hzero)
    exact Or.inl ⟨hzero, hfin, halpha, Params.terms_of_alpha_error halpha⟩
  have hsame : p.m.same (.ofInt 0) = false :=
    Bool.eq_false_iff.mpr fun h => hzero (Binary64.same_zero_iff.mp h)
  cases hfin : p.m.isFinite with
  | false =>
    have halpha : p.alpha = .error (.invalid (.notFinite p.m)) :=
      Params.alpha_of_not_finite hsame hfin
    exact Or.inr (Or.inl ⟨hzero, rfl, halpha, Params.terms_of_alpha_error halpha⟩)
  | true =>
    have halpha : p.alpha = .ok p.alphaValue := Params.alpha_of_finite hsame hfin
    have hterms := Params.terms_of_alpha_ok halpha
    cases hfirst : p.firstOverflow with
    | some what =>
      rw [hfirst] at hterms
      refine Or.inr (Or.inr (Or.inl ⟨hzero, rfl, halpha, what, ?_, hfirst, hterms⟩))
      rintro rfl
      exact Params.firstOverflow_ne_total p hfirst
    | none =>
      rw [hfirst] at hterms
      exact Or.inr (Or.inr (Or.inr ⟨hzero, rfl, halpha, hfirst, hterms⟩))

/-- Apart from its own error, the bound fails when the terms do and as they do. -/
theorem bound_eq_error_iff {e : BoundError Binary64} (he : e ≠ .overflow .total) :
    E.bound p = .error e ↔ E.terms p = .error e := by
  cases h : E.terms p with
  | error e' =>
    rw [bound_of_terms_error h, Except.error.injEq, Except.error.injEq]
  | ok t =>
    rw [bound_of_terms_ok h]
    split
    · simp
    · simpa using he.symm

theorem terms_ne_overflow_total : E.terms p ≠ .error (.overflow .total) := by
  rcases terms_cases E p with ⟨-, -, -, ht⟩ | ⟨-, -, -, ht⟩ | ⟨-, -, -, what, hwhat, -, ht⟩
    | ⟨-, -, -, -, ht⟩
  · simp [ht]
  · simp [ht]
  · simpa [ht] using hwhat
  · simp [ht]

/-- Terms that exist are what the formulas give, and every check has passed. -/
theorem terms_eq_ok_iff_guarded {t : Terms Binary64} : E.terms p = .ok t ↔
    p.m.isFinite = true ∧ (¬∃ s, p.m = .zero s) ∧
      (∀ g ∈ E.guarded p, g.2.isFinite = true) ∧ t = E.values p := by
  have hnone : E.firstOverflow p = none ↔ ∀ g ∈ E.guarded p, g.2.isFinite = true :=
    @Params.firstOverflow_eq_none_iff _ E.scalar p
  rw [← hnone]
  rcases terms_cases E p with ⟨hz, -, -, ht⟩ | ⟨-, hf, -, ht⟩ | ⟨-, -, -, w, -, hw, ht⟩
    | ⟨hz, hf, -, hw, ht⟩
  · simp [ht, hz]
  · simp [ht, hf]
  · simp [ht, hw]
  · simp [ht, hz, hf, hw, eq_comm]

/-- And so is `alpha`, which has no check of its own. -/
theorem alpha_eq_ok_iff_values {a : Binary64} : E.alpha p = .ok a ↔
    p.m.isFinite = true ∧ (¬∃ s, p.m = .zero s) ∧ a = (E.values p).alpha := by
  rcases terms_cases E p with ⟨hz, hf, ha, -⟩ | ⟨hz, hf, ha, -⟩ | ⟨hz, hf, ha, -⟩
    | ⟨hz, hf, ha, -⟩ <;> simp [ha, hf, hz, eq_comm]

/-- A bound that exists is the sum of terms that exist. -/
theorem bound_eq_ok_iff_terms {v : Binary64} : E.bound p = .ok v ↔
    ∃ t, E.terms p = .ok t ∧ v = t.proximity + t.folding + t.query ∧ v.isFinite = true := by
  cases h : E.terms p with
  | error e => simp [bound_of_terms_error h]
  | ok t =>
    rw [bound_of_terms_ok h]
    cases hfin : (t.proximity + t.folding + t.query).isFinite with
    | false => simpa using fun hv => hv ▸ hfin
    | true =>
      simp only [if_pos, Except.ok.injEq, exists_eq_left']
      exact ⟨fun hv => ⟨hv.symm, hv ▸ hfin⟩, fun hv => hv.1.symm⟩

/-- **How the evaluation of the bound ends, for any parameters.** -/
theorem linearOutcome (E : Elementary) (p : Params Binary64) : E.LinearOutcome p := by
  have hzero : E.terms p = .error .divisionByZero ↔ ∃ s, p.m = .zero s := by
    rcases terms_cases E p with ⟨hz, -, -, ht⟩ | ⟨hz, -, -, ht⟩ | ⟨hz, -, -, what, -, -, ht⟩
      | ⟨hz, -, -, -, ht⟩ <;> simp [ht, hz]
  have hinvalid : ∀ why, E.terms p = .error (.invalid why) ↔
      p.m.isFinite = false ∧ why = .notFinite p.m := by
    intro why
    rcases terms_cases E p with ⟨-, hf, -, ht⟩ | ⟨-, hf, -, ht⟩ | ⟨-, hf, -, what, -, -, ht⟩
      | ⟨-, hf, -, -, ht⟩ <;> simp [ht, hf, eq_comm]
  refine {
    alpha_eq_divisionByZero_iff := ?_
    terms_eq_divisionByZero_iff := hzero
    bound_eq_divisionByZero_iff := (bound_eq_error_iff (by simp)).trans hzero
    alpha_eq_invalid_iff := ?_
    terms_eq_invalid_iff := hinvalid
    bound_eq_invalid_iff := fun why => (bound_eq_error_iff (by simp)).trans (hinvalid why)
    alpha_eq_ok_iff := fun a => alpha_eq_ok_iff_values
    guarded_names := rfl
    terms_eq_overflow_iff := ?_
    terms_eq_ok_iff := fun t => terms_eq_ok_iff_guarded
    bound_eq_error_of_terms := fun e => bound_of_terms_error
    bound_eq_overflow_total_iff := ?_
    bound_eq_ok_iff := fun v => bound_eq_ok_iff_terms
    total_name := rfl
    boundOfValid_eq := boundOfValid_eq_match }
  · rcases terms_cases E p with ⟨hz, -, ha, -⟩ | ⟨hz, -, ha, -⟩ | ⟨hz, -, ha, -⟩ | ⟨hz, -, ha, -⟩
      <;> simp [ha, hz]
  · intro why
    rcases terms_cases E p with ⟨-, hf, ha, -⟩ | ⟨-, hf, ha, -⟩ | ⟨-, hf, ha, -⟩ | ⟨-, hf, ha, -⟩
      <;> simp [ha, hf, eq_comm]
  · intro what
    rcases terms_cases E p with ⟨hz, -, -, ht⟩ | ⟨-, hf, -, ht⟩ | ⟨hz, hf, -, w, -, hw, ht⟩
      | ⟨-, -, -, hw, ht⟩
    · simp [ht, hz]
    · simp [ht, hf]
    · simp [ht, hz, hf, hw]
    · simp [ht, hw]
  · cases h : E.terms p with
    | error e =>
      rw [bound_of_terms_error h]
      have := terms_ne_overflow_total (E := E) (p := p)
      rw [h] at this
      simpa using this
    | ok t =>
      rw [bound_of_terms_ok h]
      cases hfin : (t.proximity + t.folding + t.query).isFinite <;> simp [hfin]

end Elementary

end FriBound
